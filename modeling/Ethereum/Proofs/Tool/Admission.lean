import Ethereum.Proofs.Text.Grammar
import Ethereum.Proofs.Tool.Build

/-!
# Which arguments are admitted

The command `build` checks six conditions in a fixed order, and a fault is that of the first one
that is not met. Each condition is a matter of one argument and of the parameters, and stands here
beside what it is reported with; `Condition.check` is what the command does about it, and the
command is its checks one after the other and then the block. The last condition is met by default:
parameters are only loaded if the first block keeps to the bound on gas limits.

## Main statements

* `forM_eq_error_iff` — a run of checks fails with the first one that fails.
* `Condition.check_eq_ok_iff`, `Condition.check_eq_error_iff` — what one check does.
* `assemble_map` — the checks decide whether there is a block, and about the fault.
* `assemble_admits_exactly` — the arguments that are admitted, and how others are refused.
-/

namespace Ethereum

/-- A run of checks succeeds exactly when all of them do. -/
theorem forM_eq_ok_iff {ε α : Type} {checks : List α} {check : α → Except ε Unit} :
    checks.forM check = .ok () ↔ ∀ a ∈ checks, check a = .ok () := by
  induction checks with
  | nil => exact iff_of_true rfl (by simp)
  | cons a rest ih =>
    show (check a >>= fun _ => rest.forM check) = _ ↔ _
    rw [bind_eq_ok_iff, List.forall_mem_cons, ← ih]
    constructor
    · rintro ⟨⟨⟩, ha, hrest⟩
      exact ⟨ha, hrest⟩
    · rintro ⟨ha, hrest⟩
      exact ⟨(), ha, hrest⟩

/-- A run of checks fails with the fault of the first one that fails. -/
theorem forM_eq_error_iff {ε α : Type} {checks : List α} {check : α → Except ε Unit} {fault : ε} :
    checks.forM check = .error fault ↔
      ∃ before a after, checks = before ++ a :: after ∧ (∀ b ∈ before, check b = .ok ()) ∧
        check a = .error fault := by
  induction checks with
  | nil => exact iff_of_false nofun (by simp)
  | cons first rest ih =>
    show (check first >>= fun _ => rest.forM check) = _ ↔ _
    rw [bind_eq_error_iff, ih]
    constructor
    · rintro (hfirst | ⟨⟨⟩, hfirst, before, a, after, rfl, hbefore, ha⟩)
      · exact ⟨[], first, rest, rfl, by simp, hfirst⟩
      · exact ⟨first :: before, a, after, rfl, List.forall_mem_cons.mpr ⟨hfirst, hbefore⟩, ha⟩
    · rintro ⟨_ | ⟨b, before⟩, a, after, hchecks, hbefore, ha⟩
      · obtain ⟨rfl, rfl⟩ := List.cons.inj hchecks
        exact .inl ha
      · obtain ⟨rfl, rfl⟩ := List.cons.inj hchecks
        obtain ⟨hfirst, hbefore⟩ := List.forall_mem_cons.mp hbefore
        exact .inr ⟨(), hfirst, before, a, after, rfl, hbefore, ha⟩

/-! ## Parameters -/

namespace ProtocolParams

variable {params : ProtocolParams}

/-- Extra data beyond the bound is reported with its length and the bound. -/
theorem checkExtraData_eq_error_iff {extra : Bytes} {cause : BlockError} :
    params.checkExtraData extra = .error cause ↔
      params.maxExtraDataSize.toNat < extra.length ∧
        cause = .extraDataTooLong extra.length params.maxExtraDataSize.toNat := by
  rw [checkExtraData]
  split
  · next hlong => simp [hlong, eq_comm]
  · next hshort => simp [hshort]

/-- Parameters are accepted exactly when the first block keeps to the bound on gas limits. -/
theorem validate_eq_ok_iff :
    params.validate = .ok () ↔ params.minGasLimit ≤ params.genesisGasLimit := by
  rw [validate, ← UInt64.not_lt]
  split
  · next hlow => exact iff_of_false nofun (by simpa using hlow)
  · next hhigh => exact iff_of_true rfl hhigh

/-- In parameters that a text holds, the gas limit of the first block keeps to the bound. -/
theorem minGasLimit_le_of_ofJson {text : String} (h : ofJson text = .ok params) :
    params.minGasLimit ≤ params.genesisGasLimit := by
  rw [ofJson] at h
  split at h
  · contradiction
  · obtain ⟨⟨⟩, hvalid, hparams⟩ := bind_eq_ok_iff.mp h
    obtain rfl := Except.ok.inj hparams
    exact validate_eq_ok_iff.mp hvalid

end ProtocolParams

namespace Tool

open Text

/-! ## Conditions -/

/-- What the command asks of its arguments. -/
inductive Condition where
  | parent
  | coinbase
  | stateRoot
  | extraDigits
  | extraLength
  | gasLimit
  deriving DecidableEq

namespace Condition

/-- The conditions in the order in which they are checked. -/
def order : List Condition :=
  [.parent, .coinbase, .stateRoot, .extraDigits, .extraLength, .gasLimit]

theorem mem_order (condition : Condition) : condition ∈ order := by cases condition <;> decide

variable (arguments : BuildArguments) (params : ProtocolParams)

/-- Whether arguments meet a condition. Extra data that is not hexadecimal has no length that could
be too large. -/
def Holds : Condition → Prop
  | .parent => Hex.IsFixed 32 arguments.parent.toList
  | .coinbase => Hex.IsFixed 20 arguments.coinbase.toList
  | .stateRoot => Hex.IsFixed 32 arguments.stateRoot.toList
  | .extraDigits => ∃ digits, Hex.IsInput digits arguments.extra.toList ∧ digits.length % 2 = 0
  | .extraLength => ∀ digits, Hex.IsInput digits arguments.extra.toList → digits.length % 2 = 0 →
    digits.length / 2 ≤ params.maxExtraDataSize.toNat
  | .gasLimit => params.minGasLimit ≤ arguments.gasLimit.getD params.genesisGasLimit

/-- Whether a fault is the one that a condition is reported with if it is not met: for a text the
cause that its reader gives, and for a bound the value and the bound. -/
def ReportedAs (fault : Fault) : Condition → Prop
  | .parent => ∃ cause, Hex.decodeFixed 32 arguments.parent.toList = .error cause ∧
    fault = .parentInvalid cause
  | .coinbase => ∃ cause, Hex.decodeFixed 20 arguments.coinbase.toList = .error cause ∧
    fault = .coinbaseInvalid cause
  | .stateRoot => ∃ cause, Hex.decodeFixed 32 arguments.stateRoot.toList = .error cause ∧
    fault = .stateRootInvalid cause
  | .extraDigits => ∃ cause, Hex.decodeInput arguments.extra.toList = .error cause ∧
    fault = .extraNotHex cause
  | .extraLength => ∃ digits, Hex.IsInput digits arguments.extra.toList ∧
    fault = .extraTooLong
      (.extraDataTooLong (digits.length / 2) params.maxExtraDataSize.toNat)
  | .gasLimit => fault =
    .gasLimitBelowMinimum (arguments.gasLimit.getD params.genesisGasLimit) params.minGasLimit

/-- What the command does about a condition. -/
def check : Condition → Except Fault Unit
  | .parent => (orFault (Hex.decodeFixed 32 arguments.parent.toList) .parentInvalid).map fun _ => ()
  | .coinbase =>
    (orFault (Hex.decodeFixed 20 arguments.coinbase.toList) .coinbaseInvalid).map fun _ => ()
  | .stateRoot =>
    (orFault (Hex.decodeFixed 32 arguments.stateRoot.toList) .stateRootInvalid).map fun _ => ()
  | .extraDigits => (orFault (Hex.decodeInput arguments.extra.toList) .extraNotHex).map fun _ => ()
  | .extraLength =>
    match Hex.decodeInput arguments.extra.toList with
    | .ok extra => orFault (params.checkExtraData extra) .extraTooLong
    | .error _ => .ok ()
  | .gasLimit =>
    let limit := arguments.gasLimit.getD params.genesisGasLimit
    if limit < params.minGasLimit then .error (.gasLimitBelowMinimum limit params.minGasLimit)
    else .ok ()

end Condition

/-! ## One check -/

section
variable {ε α : Type} {result : Except ε α} {report : ε → Fault} {fault : Fault}

/-- A step that is only looked at for its fault succeeds when it gives a value. -/
theorem map_orFault_eq_ok_iff :
    (orFault result report).map (fun _ => ()) = .ok () ↔ ∃ value, result = .ok value := by
  cases result <;> simp [orFault, Except.map]

theorem map_orFault_eq_error_iff :
    (orFault result report).map (fun _ => ()) = .error fault ↔
      ∃ cause, result = .error cause ∧ fault = report cause := by
  cases result <;> simp [orFault, Except.map, eq_comm]

theorem orFault_eq_error_iff :
    orFault result report = .error fault ↔
      ∃ cause, result = .error cause ∧ fault = report cause := by
  cases result <;> simp [orFault, eq_comm]

end

section
variable {arguments : BuildArguments} {params : ProtocolParams} {condition : Condition}
  {fault : Fault}

/-- The bound on extra data is a matter of the bytes that are read. -/
theorem Condition.holds_extraLength_of_decodeInput {extra : Bytes}
    (h : Hex.decodeInput arguments.extra.toList = .ok extra) :
    Holds arguments params .extraLength ↔ extra.length ≤ params.maxExtraDataSize.toNat := by
  constructor
  · intro hholds
    obtain ⟨digits, hinput, hlen⟩ := Hex.exists_isInput h
    have hbound := hholds digits hinput (by omega)
    omega
  · intro hbound digits hinput _
    have hlen := hinput.length_eq h
    omega

/-- A check succeeds exactly when its condition is met. -/
theorem Condition.check_eq_ok_iff :
    condition.check arguments params = .ok () ↔ condition.Holds arguments params := by
  cases condition with
  | parent => exact map_orFault_eq_ok_iff.trans Hex.exists_decodeFixed_iff
  | coinbase => exact map_orFault_eq_ok_iff.trans Hex.exists_decodeFixed_iff
  | stateRoot => exact map_orFault_eq_ok_iff.trans Hex.exists_decodeFixed_iff
  | extraDigits => exact map_orFault_eq_ok_iff.trans Hex.exists_decodeInput_iff
  | extraLength =>
    cases hread : Hex.decodeInput arguments.extra.toList with
    | ok extra =>
      rw [check, hread, holds_extraLength_of_decodeInput hread]
      exact orFault_eq_ok_iff.trans ProtocolParams.checkExtraData_eq_ok_iff
    | error cause =>
      rw [check, hread]
      refine iff_of_true rfl fun digits hinput heven => ?_
      obtain ⟨extra, hextra⟩ := Hex.exists_decodeInput_iff.mpr ⟨digits, hinput, heven⟩
      rw [hread] at hextra
      contradiction
  | gasLimit =>
    rw [check, Holds, ← UInt64.not_lt]
    split
    · next hlow => exact iff_of_false nofun (by simpa using hlow)
    · next hhigh => exact iff_of_true rfl hhigh

/-- A check fails exactly when its condition is not met, with the fault that the condition is
reported with. -/
theorem Condition.check_eq_error_iff :
    condition.check arguments params = .error fault ↔
      ¬ condition.Holds arguments params ∧ condition.ReportedAs arguments params fault := by
  have hfails : condition.check arguments params = .error fault →
      ¬ condition.Holds arguments params := by
    intro h hholds
    rw [check_eq_ok_iff.mpr hholds] at h
    contradiction
  -- of a text that its reader refuses, the cause says enough
  have hreader : (condition.check arguments params = .error fault ↔
      condition.ReportedAs arguments params fault) →
      (condition.check arguments params = .error fault ↔
        ¬ condition.Holds arguments params ∧ condition.ReportedAs arguments params fault) :=
    fun h => ⟨fun hcheck => ⟨hfails hcheck, h.mp hcheck⟩, fun hreported => h.mpr hreported.2⟩
  cases condition with
  | parent => exact hreader map_orFault_eq_error_iff
  | coinbase => exact hreader map_orFault_eq_error_iff
  | stateRoot => exact hreader map_orFault_eq_error_iff
  | extraDigits => exact hreader map_orFault_eq_error_iff
  | extraLength =>
    cases hread : Hex.decodeInput arguments.extra.toList with
    | ok extra =>
      rw [holds_extraLength_of_decodeInput hread, Nat.not_le, check, hread]
      dsimp only
      rw [orFault_eq_error_iff]
      simp only [ProtocolParams.checkExtraData_eq_error_iff]
      constructor
      · rintro ⟨_, ⟨hlong, rfl⟩, rfl⟩
        obtain ⟨digits, hinput, hlen⟩ := Hex.exists_isInput hread
        have hhalf : digits.length / 2 = extra.length := by omega
        exact ⟨hlong, digits, hinput, by rw [hhalf]⟩
      · rintro ⟨hlong, digits, hinput, rfl⟩
        have hlen := hinput.length_eq hread
        have hhalf : digits.length / 2 = extra.length := by omega
        exact ⟨_, ⟨hlong, rfl⟩, by rw [hhalf]⟩
    | error cause =>
      have hholds : Holds arguments params .extraLength := by
        rw [← check_eq_ok_iff, check, hread]
      exact iff_of_false (fun h => hfails h hholds) fun h => h.1 hholds
  | gasLimit =>
    rw [check, Holds, ← UInt64.not_lt, not_not, ReportedAs]
    split
    · next hlow => simp [hlow, eq_comm]
    · next hhigh => simp [hhigh]

/-! ## The checks in order -/

variable [HashFunction] {now : UInt64}

/-- The checks decide whether there is a block, and if there is none, about the fault. -/
theorem assemble_map :
    (assemble arguments params now).map (fun _ => ()) =
      Condition.order.forM (Condition.check arguments params) := by
  simp only [assemble, Condition.order, List.forM_eq_forM, List.forM_cons, List.forM_nil,
    Condition.check]
  cases Hex.decodeFixed 32 arguments.parent.toList with
  | error cause => rfl
  | ok parent =>
  cases Hex.decodeFixed 20 arguments.coinbase.toList with
  | error cause => rfl
  | ok coinbase =>
  cases Hex.decodeFixed 32 arguments.stateRoot.toList with
  | error cause => rfl
  | ok stateRoot =>
  cases Hex.decodeInput arguments.extra.toList with
  | error cause => rfl
  | ok extra =>
  -- the texts are read, and what is left are the two bounds
  simp only [orFault, bind, Except.bind, Except.map]
  cases params.checkExtraData extra with
  | error cause => rfl
  | ok _ =>
    by_cases hlow : arguments.gasLimit.getD params.genesisGasLimit < params.minGasLimit
    · simp only [if_pos hlow]
    · simp only [if_neg hlow]
      rfl

/-- Arguments make a block exactly when they meet every condition. -/
theorem exists_assemble_iff :
    (∃ block, assemble arguments params now = .ok block) ↔
      ∀ condition : Condition, condition.Holds arguments params := by
  have hmap : (∃ block, assemble arguments params now = .ok block) ↔
      (assemble arguments params now).map (fun _ => ()) = .ok () := by
    cases assemble arguments params now <;> simp [Except.map]
  rw [hmap, assemble_map, forM_eq_ok_iff]
  exact ⟨fun h condition => Condition.check_eq_ok_iff.mp (h condition condition.mem_order),
    fun h condition _ => Condition.check_eq_ok_iff.mpr (h condition)⟩

/-- Arguments are refused with the fault of the first condition that they do not meet. -/
theorem assemble_eq_error_iff :
    assemble arguments params now = .error fault ↔
      ∃ before condition after, Condition.order = before ++ condition :: after ∧
        (∀ earlier ∈ before, earlier.Holds arguments params) ∧
        ¬ condition.Holds arguments params ∧ condition.ReportedAs arguments params fault := by
  have hmap : assemble arguments params now = .error fault ↔
      (assemble arguments params now).map (fun _ => ()) = .error fault := by
    cases assemble arguments params now <;> simp [Except.map]
  rw [hmap, assemble_map, forM_eq_error_iff]
  simp only [Condition.check_eq_ok_iff, Condition.check_eq_error_iff]

omit [HashFunction] in
/-- The gas limit of the first block keeps to the bound, whichever file the parameters come from and
when they come from none. -/
theorem minGasLimit_le_of_loadParams {env : Environment} {config : Option String}
    (h : loadParams env config = .ok params) : params.minGasLimit ≤ params.genesisGasLimit := by
  cases config with
  | none =>
    obtain rfl := Except.ok.inj h
    decide
  | some path =>
    obtain ⟨text, -, hjson⟩ := bind_eq_ok_iff.mp h
    exact ProtocolParams.minGasLimit_le_of_ofJson (orFault_eq_ok_iff.mp hjson)

end

/-- The command admits exactly the arguments that meet its six conditions: the parent and the state
root are 64 hexadecimal digits and the coinbase is 40, of either case, behind `0x` in either case or
not; the extra data is, between blanks and behind `0x` or not, an even number of digits, and as many
bytes as the parameters allow at most; the gas limit, which is that of the first block if none is
given, is no less than the parameters ask for. Other arguments are refused with the fault of the
first condition in this order that they do not meet. Under parameters that were loaded, from any
file or from none, arguments without a gas limit meet the last condition, so that they are never
refused for it. -/
theorem assemble_admits_exactly [HashFunction] (arguments : BuildArguments)
    (params : ProtocolParams) (now : UInt64) :
    ((∃ block, assemble arguments params now = .ok block) ↔
      ∀ condition : Condition, condition.Holds arguments params) ∧
    (∀ fault : Fault, assemble arguments params now = .error fault ↔
      ∃ before condition after, Condition.order = before ++ condition :: after ∧
        (∀ earlier ∈ before, earlier.Holds arguments params) ∧
        ¬ condition.Holds arguments params ∧ condition.ReportedAs arguments params fault) ∧
    ∀ (env : Environment) (config : Option String), loadParams env config = .ok params →
      arguments.gasLimit = none →
        Condition.gasLimit.Holds arguments params ∧
          ∀ limit minimum, assemble arguments params now ≠
            .error (.gasLimitBelowMinimum limit minimum) := by
  refine ⟨exists_assemble_iff, fun fault => assemble_eq_error_iff, fun env config hload hnone => ?_⟩
  have hholds : Condition.gasLimit.Holds arguments params := by
    rw [Condition.Holds, hnone]
    exact minGasLimit_le_of_loadParams hload
  refine ⟨hholds, fun limit minimum h => ?_⟩
  obtain ⟨before, condition, after, -, -, hfails, hreported⟩ := assemble_eq_error_iff.mp h
  -- no other condition is reported so
  cases condition with
  | gasLimit => exact hfails hholds
  | _ => simp [Condition.ReportedAs] at hreported

/-- The small arguments are admitted. With a short coinbase and a gas limit of one they are refused
for the coinbase, which comes first. Under parameters from a file that raises both gas limits, they
are not refused for theirs, which is that of the first block. -/
theorem assemble_admits_exactly_smallArguments :
    let short := { smallArguments with coinbase := "0x12", gasLimit := some 1 }
    let text := "\x7b\"minGasLimit\": 4000000, \"genesisGasLimit\": 4000000\x7d"
    let env : Environment := { files := [("params.json", .ok (toUtf8 text.toList))] }
    (∃ block, assemble smallArguments {} 0 = .ok block) ∧
      assemble short {} 0 = .error (.coinbaseInvalid .wrongLength) ∧
      ∃ params, loadParams env (some "params.json") = .ok params ∧ params.minGasLimit = 4000000 ∧
        ∀ limit minimum, assemble smallArguments params 0 ≠
          .error (.gasLimitBelowMinimum limit minimum) := by
  intro short text env
  have hload : loadParams env (some "params.json") =
      .ok { minGasLimit := 4000000, genesisGasLimit := 4000000 } := by decide +kernel
  have hmeets : ∀ condition : Condition, condition.check smallArguments {} = .ok () := by
    intro condition
    cases condition <;> decide +kernel
  have hparent : Condition.parent.check short {} = .ok () := by decide +kernel
  have hcoinbase : Condition.coinbase.check short {} = .error (.coinbaseInvalid .wrongLength) := by
    decide
  obtain ⟨hadmits, -, -⟩ := assemble_admits_exactly smallArguments {} 0
  obtain ⟨-, hrefused, -⟩ := assemble_admits_exactly short {} 0
  obtain ⟨-, -, hdefault⟩ := assemble_admits_exactly smallArguments _ 0
  refine ⟨hadmits.mpr fun condition => Condition.check_eq_ok_iff.mp (hmeets condition), ?_,
    _, hload, rfl, (hdefault env _ hload rfl).2⟩
  refine (hrefused _).mpr
    ⟨[.parent], .coinbase, _, rfl, ?_, Condition.check_eq_error_iff.mp hcoinbase⟩
  intro earlier hmem
  obtain rfl := List.mem_singleton.mp hmem
  exact Condition.check_eq_ok_iff.mp hparent

/-- The marker in upper case counts as one too: with it in front of the parent, the small arguments
are admitted, although the parent is not 64 digits behind `0x` or nothing. -/
theorem assemble_admits_upperMarker :
    let arguments :=
      { smallArguments with parent := String.ofList ('0' :: 'X' :: List.replicate 64 'A') }
    (∃ block, assemble arguments {} 0 = .ok block) ∧
      ¬ ∃ digits, Hex.HasDigits [['0', 'x']] digits arguments.parent.toList ∧
        digits.length = 64 := by
  intro arguments
  have hmeets : ∀ condition : Condition, condition.check arguments {} = .ok () := by
    intro condition
    cases condition <;> decide +kernel
  refine ⟨exists_assemble_iff.mpr fun condition => Condition.check_eq_ok_iff.mp (hmeets condition),
    ?_⟩
  rintro ⟨digits, ⟨⟨marker, hmarker, htext⟩, -⟩, hlen⟩
  rw [String.toList_ofList] at htext
  rcases List.mem_pair.mp hmarker with rfl | rfl
  · -- without a marker there are 66 characters
    have hwhole := congrArg List.length htext
    simp [hlen] at hwhole
  · simp at htext

end Tool

end Ethereum
