import Ethereum.Proofs.Tool.Build

/-!
# Runs in a tree of files

A run looks at files by path, and only at the paths that its invocation names. So whatever else
there is around it, it goes as it goes in a tree of files that gives the same for these paths. In a
tree, a path of plain names leads to the place of these names, below the root or below the working
directory, and reading it gives the file that stands there.

## Main statements

* `FileTree.follow_eq_append` — the names of a file lead to its place.
* `FileTree.read_absolute`, `FileTree.read_relative` — files are read by their names.
* `Invocation.run_congr`, `Invocation.runIn_eq_run` — a run is decided by what its paths give.
-/

namespace Ethereum.Tool

/-! ## Paths in a tree -/

namespace FileTree

variable {tree : FileTree} {place names : List String} {content : Bytes}

/-- Whether a name is that of a file or a directory, and short enough to be looked up. -/
structure IsPlainName (name : String) : Prop where
  ne_empty : name ≠ ""
  ne_dot : name ≠ "."
  ne_dots : name ≠ ".."
  slash_notMem : '/' ∉ name.toList
  length_le : name.utf8ByteSize ≤ maxNameLength

/-- A file stands in a directory, and that one in those above it. -/
theorem isDirectory_of_lookup {name : String}
    (h : tree.files.lookup (place ++ name :: names) = some content) : tree.isDirectory place := by
  obtain ⟨before, after, hfiles, -⟩ := List.lookup_eq_some_iff.mp h
  have hmem : (place ++ name :: names, content) ∈ tree.files := by
    rw [hfiles]
    simp
  rw [isDirectory, Bool.or_eq_true]
  exact .inr (List.any_eq_true.mpr ⟨_, hmem, by simp⟩)

/-- The names of a file lead to its place. -/
theorem follow_eq_append (hnames : ∀ name ∈ names, IsPlainName name)
    (h : tree.files.lookup (place ++ names) = some content) :
    tree.follow place names = .ok (place ++ names) := by
  induction names generalizing place with
  | nil => rw [follow, List.append_nil]
  | cons name names ih =>
    obtain ⟨hname, hnames⟩ := List.forall_mem_cons.mp hnames
    have hdirectory := isDirectory_of_lookup h
    rw [List.append_cons] at h ⊢
    rw [follow, hdirectory, if_neg (by simp), if_neg (Nat.not_lt_of_le hname.length_le),
      if_neg (by simp [hname.ne_empty, hname.ne_dot]), if_neg hname.ne_dots, ih hnames h]

/-- The names in a path are those that it was made of. -/
theorem namesOf_intercalate (hne : names ≠ []) (hnames : ∀ name ∈ names, '/' ∉ name.toList) :
    namesOf ("/".intercalate names) = names := by
  have hsplit : (['/'].intercalate (names.map String.toList)).splitOn '/' =
      names.map String.toList :=
    List.splitOn_intercalate '/' (by simpa using hnames) (by simpa using hne)
  have htext : ("/".intercalate names).toList = ['/'].intercalate (names.map String.toList) :=
    String.toList_intercalate
  rw [namesOf, htext, hsplit, List.map_map]
  simp [Function.comp_def]

/-- A path of plain names starts with the first of them. -/
theorem exists_cons_intercalate (hne : names ≠ []) (hnames : ∀ name ∈ names, IsPlainName name) :
    ∃ c rest, ("/".intercalate names).toList = c :: rest ∧ c ≠ '/' := by
  obtain ⟨name, others, rfl⟩ := List.exists_cons_of_ne_nil hne
  obtain ⟨hname, -⟩ := List.forall_mem_cons.mp hnames
  have hchars : name.toList ≠ [] := by simpa using hname.ne_empty
  obtain ⟨c, chars, hc⟩ := List.exists_cons_of_ne_nil hchars
  have hslash : c ≠ '/' := by
    rintro rfl
    exact hname.slash_notMem (hc ▸ List.mem_cons_self)
  rw [String.toList_intercalate, List.map_cons, hc]
  cases others with
  | nil => exact ⟨c, chars, List.intercalate_singleton, hslash⟩
  | cons other others =>
    rw [List.map_cons, List.intercalate_cons_cons]
    exact ⟨c, _, rfl, hslash⟩

/-- Reading a path gives the file at the place that its names lead to. -/
theorem read_of_follow {path : String} (hpath : path ≠ "")
    (hlength : path.utf8ByteSize ≤ maxPathLength)
    (hfollow : tree.follow (tree.startOf path) (namesOf path) = .ok place)
    (h : tree.files.lookup place = some content) : tree.read path = .ok content := by
  rw [read, if_neg (by simpa using hpath), if_neg (Nat.not_lt_of_le hlength), hfollow]
  simp only [bind, Except.bind, h]

/-- A file is read by its names from the working directory. -/
theorem read_relative (hne : names ≠ []) (hnames : ∀ name ∈ names, IsPlainName name)
    (hlength : ("/".intercalate names).utf8ByteSize ≤ maxPathLength)
    (h : tree.files.lookup (tree.working ++ names) = some content) :
    tree.read ("/".intercalate names) = .ok content := by
  have hnamesOf := namesOf_intercalate hne fun name hname => (hnames name hname).slash_notMem
  obtain ⟨c, rest, htext, hc⟩ := exists_cons_intercalate hne hnames
  have hstart : tree.startOf ("/".intercalate names) = tree.working := by
    rw [startOf, htext]
    exact if_neg (by simpa using hc)
  refine read_of_follow ?_ hlength ?_ h
  · intro hempty
    simp [hempty] at htext
  · rw [hstart, hnamesOf]
    exact follow_eq_append hnames h

/-- A file is read by its names from the root. -/
theorem read_absolute (hne : names ≠ []) (hnames : ∀ name ∈ names, IsPlainName name)
    (hlength : ("/".intercalate ("" :: names)).utf8ByteSize ≤ maxPathLength)
    (h : tree.files.lookup names = some content) :
    tree.read ("/".intercalate ("" :: names)) = .ok content := by
  have hnamesOf : namesOf ("/".intercalate ("" :: names)) = "" :: names :=
    namesOf_intercalate (List.cons_ne_nil _ _) <|
      List.forall_mem_cons.mpr ⟨by simp, fun name hname => (hnames name hname).slash_notMem⟩
  have hslash : ("/".intercalate ("" :: names)).toList.head? = some '/' := by
    obtain ⟨name, rest, rfl⟩ := List.exists_cons_of_ne_nil hne
    rw [String.toList_intercalate, List.map_cons, List.map_cons, List.intercalate_cons_cons]
    rfl
  have hstart : tree.startOf ("/".intercalate ("" :: names)) = [] := if_pos hslash
  refine read_of_follow ?_ hlength ?_ h
  · intro hempty
    simp [hempty] at hslash
  · -- the empty name in front stays at the root
    rw [hstart, hnamesOf, follow]
    have hroot : tree.isDirectory [] := by simp [isDirectory]
    have hfollow : tree.follow [] names = .ok ([] ++ names) := follow_eq_append hnames h
    simpa [hroot] using hfollow

/-- Dots and empty names lead to the same file. -/
example : (⟨[(["tmp", "block.hex"], [0x30])], ["tmp"]⟩ : FileTree).read "../tmp//./block.hex" =
    .ok [0x30] := by
  rfl

end FileTree

/-! ## What a run looks at -/

/-- Whether two environments give the same for some paths, at the same time. -/
structure Environment.AgreeOn (paths : List String) (a b : Environment) : Prop where
  lookup_eq : ∀ path ∈ paths, a.files.lookup path = b.files.lookup path
  now_eq : a.now = b.now

section
variable {a b env : Environment} {paths : List String}

theorem Environment.AgreeOn.readText_eq (h : Environment.AgreeOn paths a b) {path : String}
    (hpath : path ∈ paths) : a.readText path = b.readText path := by
  rw [readText, readText, h.lookup_eq path hpath]

theorem Environment.AgreeOn.loadParams_eq {config : Option String}
    (h : Environment.AgreeOn paths a b) (hconfig : ∀ path ∈ config, path ∈ paths) :
    loadParams a config = loadParams b config := by
  cases config with
  | none => rfl
  | some path => rw [loadParams, loadParams, h.readText_eq (hconfig path rfl)]

theorem Environment.AgreeOn.readInput_eq {source : InputSource}
    (h : Environment.AgreeOn paths a b) (hsource : ∀ path, source = .file path → path ∈ paths) :
    readInput a source = readInput b source := by
  cases source with
  | hex text => rfl
  | file path => rw [readInput, readInput, h.readText_eq (hsource path rfl)]

variable [HashFunction] {invocation : Invocation}

theorem runCommand_congr (h : Environment.AgreeOn invocation.paths a b) (params : ProtocolParams) :
    runCommand a params invocation.command = runCommand b params invocation.command := by
  cases hcommand : invocation.command with
  | decode input =>
    have hinput : readInput a input = readInput b input :=
      h.readInput_eq fun path hpath => by simp [Invocation.paths, hcommand, hpath]
    rw [runCommand, runCommand, runDecode, runDecode, hinput]
  | headerHash input =>
    have hinput : readInput a input = readInput b input :=
      h.readInput_eq fun path hpath => by simp [Invocation.paths, hcommand, hpath]
    rw [runCommand, runCommand, runHeaderHash, runHeaderHash, hinput]
  | build arguments => rw [runCommand, runCommand, runBuild, runBuild, h.now_eq]
  | version => rfl

/-- A run is decided by what the paths of its invocation give. -/
theorem Invocation.run_congr (h : Environment.AgreeOn invocation.paths a b) :
    invocation.run a = invocation.run b := by
  have hparams : loadParams a invocation.config = loadParams b invocation.config :=
    h.loadParams_eq fun path hpath => List.mem_append_left _ (Option.mem_toList.mpr hpath)
  have hcommand := fun params => runCommand_congr h params
  rw [run, run, hparams]
  cases hversion : invocation.command with
  | version => rfl
  | _ => simp only [← hversion, hcommand]

/-- A run goes as in a tree of files wherever the paths of its invocation give what they give in the
tree. -/
theorem Invocation.runIn_eq_run {tree : FileTree}
    (h : ∀ path ∈ invocation.paths, env.files.lookup path = some (tree.read path)) :
    invocation.runIn tree env.now = invocation.run env := by
  refine Invocation.run_congr ⟨fun path hpath => ?_, rfl⟩
  rw [h path hpath, List.lookup_graph _ hpath]

end

end Ethereum.Tool
