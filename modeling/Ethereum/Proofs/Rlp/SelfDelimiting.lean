import Ethereum.Proofs.Block.Wire
import Ethereum.Proofs.Rlp.Framed
import Ethereum.Proofs.Rlp.Shape

/-!
# Encodings say where they end

Every value is a single item, so its end is known before anything behind it is looked at. A reader
of the front leaves exactly what follows; where the value has to be all there is, what follows is
counted; and a value that is cut short is refused as too short, not as something else and not as
another value. Records read their fields from all that follows their head, and still obey this.

## Main statements

* `Codec.Framed.delimits`, `delimits_storageBytes` — formats of single items, and blocks.
* `encodings_delimit_values` — the values of every type, and both forms of a block.
-/

namespace Ethereum.Rlp

/-- Whether a byte string is read as a value wherever it stands, what follows it is told from it,
and no proper part of it from the start is read as anything. `front` reads off the front, and
`exact` all there is. -/
structure Delimits {ε α : Type} (front : Bytes → Except ε (α × Bytes))
    (exact : Bytes → Except BlockError α) (bs : Bytes) (a : α) : Prop where
  /-- What follows is left. -/
  front_append (rest : Bytes) : front (bs ++ rest) = .ok (a, rest)
  exact_self : exact bs = .ok a
  /-- What follows is counted where nothing may follow. -/
  exact_append {rest : Bytes} :
    rest ≠ [] → exact (bs ++ rest) = .error (.trailingBytes rest.length)
  /-- A part is too short, wherever it is cut. -/
  exact_cut {cut : Bytes} :
    cut <+: bs → cut ≠ bs → exact cut = .error (.malformedEncoding .inputTooShort)

/-- A byte string delimits a value as soon as it is read off the front and cannot be cut. -/
theorem delimits_whole {α : Type} {read : Bytes → Except BlockError (α × Bytes)} {bs : Bytes}
    {a : α} (hread : ∀ rest, read (bs ++ rest) = .ok (a, rest))
    (hcut : ∀ cut, cut <+: bs → cut ≠ bs → read cut = .error (.malformedEncoding .inputTooShort)) :
    Delimits read (whole read) bs a where
  front_append := hread
  exact_self := by
    have hself := hread []
    rw [List.append_nil] at hself
    exact whole_eq_ok_iff.mpr hself
  exact_append {rest} hrest := whole_eq_error_iff.mpr (.inr ⟨a, rest, hread rest, hrest, rfl⟩)
  exact_cut {cut} hprefix hne := whole_eq_error_iff.mpr (.inl (hcut cut hprefix hne))

/-- The encodings of a format of single items delimit their values. -/
theorem Codec.Framed.delimits {α : Type} {c : Codec α} (hframed : c.Framed) (hlawful : c.Lawful)
    {a : α} (hlen : (c.encode a).length < 2 ^ 64) :
    Delimits c.decode c.decodeExact (c.encode a) a := by
  have hread : ∀ rest, c.decode (c.encode a ++ rest) = .ok (a, rest) := fun rest =>
    hlawful.decode_encode a rest (hlawful.length_encode a ▸ hlen)
  have hwhole : Delimits (fun bs => liftRlp (c.decode bs)) c.decodeExact (c.encode a) a :=
    delimits_whole (fun rest => liftRlp_eq_ok_iff.mpr (hread rest)) fun cut hcut hne =>
      liftRlp_eq_error_iff.mpr ⟨_, hframed.decode_of_isPrefix hlen hcut hne, rfl⟩
  exact { hwhole with front_append := hread }

/-- Every type without blocks has a format of single items. -/
theorem Shape.codec_framed {shape : Shape} (h : shape.isBlockFree) : shape.codec.Framed := by
  cases shape with
  | uint64 => exact Codec.uint64_framed
  | uint256 => exact Codec.uint256_framed
  | bytes => exact Codec.bytes_framed
  | fixed n => exact Codec.fixed_framed n
  | recipient => exact Codec.recipient_framed
  | transaction => exact Codec.record_framed Transaction.fields_lawful
  | log => exact Codec.record_framed Log.fields_lawful
  | receipt => exact Codec.record_framed Receipt.fields_lawful
  | header => exact Codec.record_framed Header.fields_lawful
  | block => exact absurd h (by decide)
  | list item => exact Codec.list_framed (Shape.codec_lawful h)

/-- The storage form of a block delimits what it keeps of the block. -/
theorem delimits_storageBytes {block : Block} (hlen : block.storageBytes.length < 2 ^ 64) :
    Delimits Block.decodeFront Block.decode block.storageBytes block.stored := by
  have hsize := Nat.lt_of_le_of_lt block.storagePayload_le hlen
  refine delimits_whole (fun rest => ?_) fun cut hcut hne => ?_
  · exact Block.decodeFront_eq_ok_iff.mpr ⟨rfl, hsize, rfl⟩
  · rw [Block.storageBytes_eq] at hcut hne
    rw [← Block.length_storageBody] at hsize
    have htake : takePayload .list cut = .error .inputTooShort :=
      takePayload_eq_error (Head.decode_of_isPrefix hsize hcut hne)
    exact bind_eq_error_iff.mpr (.inl (liftRlp_eq_error_iff.mpr ⟨_, htake, rfl⟩))

/-- Encodings are self-delimiting, and one that is cut short is always refused as too short: those
of the values of every type without blocks, and both forms of every block. -/
theorem encodings_delimit_values :
    (∀ (shape : Shape) (value : shape.Value), shape.isBlockFree →
      (shape.codec.encode value).length < 2 ^ 64 →
        Delimits shape.codec.decode shape.codec.decodeExact (shape.codec.encode value) value) ∧
    ∀ block : Block,
      (block.storageBytes.length < 2 ^ 64 →
        Delimits Block.decodeFront Block.decode block.storageBytes block.stored) ∧
      (block.networkBytes.length < 2 ^ 64 →
        Delimits Block.decodeFront Block.decode block.networkBytes block.sent) := by
  refine ⟨fun shape value hshape hlen => ?_, fun block => ⟨delimits_storageBytes, fun hlen => ?_⟩⟩
  · exact (Shape.codec_framed hshape).delimits (Shape.codec_lawful hshape) hlen
  · rw [Block.networkBytes_eq] at hlen ⊢
    exact delimits_storageBytes hlen

/-- A header and something behind it, the small block cut inside of the length in its head, and the
same block in network form without its last byte. -/
theorem encodings_delimit_values_smallBlock :
    let header : Header := { extraData := [0x80] }
    let block := Block.smallBlock
    (Shape.header.codec.encode header).length < 2 ^ 64 ∧ block.storageBytes.length < 2 ^ 64 ∧
      block.networkBytes.length < 2 ^ 64 ∧
      Shape.header.codec.decodeExact (Shape.header.codec.encode header ++ [0xc0]) =
        .error (.trailingBytes 1) ∧
      Block.decode (block.storageBytes.take 2) = .error (.malformedEncoding .inputTooShort) ∧
      Block.decode block.networkBytes.dropLast = .error (.malformedEncoding .inputTooShort) := by
  intro header block
  have hheader : (Shape.header.codec.encode header).length < 2 ^ 64 := by decide +kernel
  have hstorage : block.storageBytes.length < 2 ^ 64 := by decide +kernel
  have hnetwork : block.networkBytes.length < 2 ^ 64 := by decide +kernel
  have hvalue := encodings_delimit_values.1 .header header rfl hheader
  have hblock := encodings_delimit_values.2 block
  exact ⟨hheader, hstorage, hnetwork, hvalue.exact_append (by decide),
    (hblock.1 hstorage).exact_cut (List.take_prefix 2 _) (by decide +kernel),
    (hblock.2 hnetwork).exact_cut (List.dropLast_prefix _) (by decide +kernel)⟩

end Ethereum.Rlp
