import NativeApi.Proofs.GuidForms
import NativeApi.Proofs.NamedField
import NativeApi.Proofs.SelfDelimiting

/-!
# Attributes read from their text

The hexadecimal text of a custom attribute holds everything that the attribute was made from. It is
read in two steps. `Hex.ofDump?` turns pairs of capital digits between single blanks into bytes, and
accepts nothing else, so a blob has one text (`Hex.ofDump?_eq_some_iff`). `Attribute.Layout.reader`
then takes the bytes apart in the order in which they were put together: the prolog, the arguments
of the layout, the count of named arguments.

There are six kinds of attributes and five layouts, because both kinds of array sizes are a named
field. What keeps them apart is inside the field: its element type and its name.
-/

namespace NativeApi

/-! ## Dumps -/

namespace Hex

/-- The value of a digit that is written in upper case. -/
def capitalValue? (b : UInt8) : Option Nat := if Text.isLower b then none else Text.digitValue? b

/-- The byte that two capital digits denote. -/
def ofPair? : Text → Option UInt8
  | [high, low] => do
    let h ← capitalValue? high
    let l ← capitalValue? low
    return UInt8.ofNat (16 * h + l)
  | _ => none

/-- Reads pairs of capital digits with one blank between two pairs. -/
def ofDump? (t : Text) : Option Blob :=
  if t = [] then some [] else (Text.splitOn Text.blank t).mapM ofPair?

theorem capitalValue?_eq_some_iff {b : UInt8} {v : Nat} :
    capitalValue? b = some v ↔ v < 16 ∧ b = digit v := by
  have hread : ∀ b, ∀ v ∈ capitalValue? b, v < 16 ∧ b = digit v :=
    Text.forall_byte (by decide +kernel)
  have hwritten : ∀ v < 16, capitalValue? (digit v) = some v := by decide
  constructor
  · exact hread b v
  · rintro ⟨hv, rfl⟩
    exact hwritten v hv

theorem ofPair?_eq_some_iff {t : Text} {byte : UInt8} : ofPair? t = some byte ↔ t = pair byte := by
  constructor
  · intro h
    match t, h with
    | [high, low], h =>
      simp only [ofPair?, Option.bind_eq_bind, Option.bind_eq_some_iff,
        capitalValue?_eq_some_iff] at h
      obtain ⟨v, ⟨hv, rfl⟩, w, ⟨hw, rfl⟩, hbyte⟩ := h
      cases hbyte
      exact (pair_ofNat hv hw).symm
  · rintro rfl
    have hhigh : byte.toNat / 16 < 16 := Nat.div_lt_of_lt_mul byte.toNat_lt
    have hlow : byte.toNat % 16 < 16 := Nat.mod_lt _ (by decide)
    have hbyte : UInt8.ofNat (16 * (byte.toNat / 16) + byte.toNat % 16) = byte := by
      rw [Nat.div_add_mod, UInt8.ofNat_toNat]
    rw [pair, ofPair?, capitalValue?_eq_some_iff.mpr ⟨hhigh, rfl⟩,
      capitalValue?_eq_some_iff.mpr ⟨hlow, rfl⟩]
    exact congrArg some hbyte

theorem mapM_ofPair?_eq_some_iff {pieces : List Text} {b : Blob} :
    pieces.mapM ofPair? = some b ↔ pieces = b.map pair := by
  induction pieces generalizing b with
  | nil => cases b <;> simp
  | cons piece pieces ih =>
    simp only [List.mapM_cons, Option.bind_eq_bind, Option.bind_eq_some_iff, Option.pure_def,
      Option.some.injEq, ih, ofPair?_eq_some_iff]
    constructor
    · rintro ⟨byte, rfl, rest, rfl, rfl⟩
      rfl
    · intro h
      cases b with
      | nil => cases h
      | cons byte rest =>
        obtain ⟨rfl, rfl⟩ := List.cons.inj h
        exact ⟨byte, rfl, rest, rfl, rfl⟩

theorem blank_notMem_pair (byte : UInt8) : Text.blank ∉ pair byte :=
  Text.forall_byte (P := fun byte ↦ Text.blank ∉ pair byte) (by decide +kernel) byte

theorem dump_eq_nil_iff {b : Blob} : dump b = [] ↔ b = [] := by
  constructor
  · intro h
    cases b with
    | nil => rfl
    | cons byte b =>
      have hhead : (dump (byte :: b)).head? = some (digit (byte.toNat / 16)) :=
        Text.head?_joinWith ..
      rw [h] at hhead
      cases hhead
  · rintro rfl
    rfl

/-- A blob is read from its dump and from no other text. -/
theorem ofDump?_eq_some_iff {t : Text} {b : Blob} : ofDump? t = some b ↔ t = dump b := by
  rw [ofDump?]
  split
  · rename_i h
    rw [h, Option.some.injEq, eq_comm, eq_comm (a := []), dump_eq_nil_iff]
  · rename_i h
    rw [mapM_ofPair?_eq_some_iff]
    constructor
    · intro hpieces
      rw [dump, ← hpieces, Text.joinWith_splitOn]
    · rintro rfl
      have hpieces : b.map pair ≠ [] := by
        rw [ne_eq, List.map_eq_nil_iff, ← dump_eq_nil_iff]
        exact h
      refine Text.splitOn_joinWith hpieces fun piece hpiece ↦ ?_
      obtain ⟨byte, -, rfl⟩ := List.mem_map.mp hpiece
      exact blank_notMem_pair byte

end Hex

/-! ## Readers of parts -/

namespace Reader

/-- Takes one byte. -/
def byte : Reader UInt8 := fun b ↦ b.head?.map fun x ↦ (x, b.tail)

/-- Takes the given bytes. -/
def exactly (front : Blob) : Reader Unit := do
  let b ← bytes front.length
  if b = front then return () else failure

/-- Takes the number that a word of a width denotes. -/
def word (width : Nat) : Reader Nat := do
  let b ← bytes width
  return LittleEndian.value b

theorem takes_byte (x : UInt8) : byte.Takes [x] x := fun _ ↦ rfl

theorem takes_exactly (front : Blob) : (exactly front).Takes front () := by
  rw [← List.append_nil front]
  refine .bind (takes_bytes (by rw [List.append_nil])) ?_
  rw [List.append_nil, if_pos rfl]
  exact takes_pure ()

theorem takes_word {n width : Nat} {b : Blob} (h : LittleEndian.encode? n width = some b) :
    (word width).Takes b n := by
  have hfits := LittleEndian.isSome_encode?_iff.mp (Option.isSome_of_eq_some h)
  rw [LittleEndian.encode?, if_pos hfits, Option.some.injEq] at h
  subst h
  rw [← List.append_nil (LittleEndian.bytes width n)]
  refine .bind (takes_bytes (LittleEndian.length_bytes width n)) ?_
  rw [LittleEndian.value_bytes, Nat.mod_eq_of_lt hfits]
  exact takes_pure n

end Reader

namespace CountedString

/-- Takes a text behind a length of one byte. -/
def takeShort : Reader Text := do
  let n ← Reader.word 1
  if n ≤ 0x7F then Reader.bytes n else failure

theorem takes_short? {t : Text} {b : Blob} (h : short? t = some b) : takeShort.Takes b t := by
  rw [short?] at h
  split at h
  · rename_i hlength
    have hbyte : t.length < Nat.pow 256 1 := Nat.lt_of_le_of_lt hlength (by decide)
    have hword : LittleEndian.encode? t.length 1 = some [UInt8.ofNat t.length] := by
      rw [LittleEndian.encode?, if_pos hbyte]
      rfl
    obtain rfl := Option.some.inj h
    have hshort : t.length ≤ 0x7F := hlength
    refine .bind (b := [UInt8.ofNat t.length]) (Reader.takes_word hword) ?_
    rw [if_pos hshort]
    exact Reader.takes_bytes rfl
  · cases h

end CountedString

/-! ## Payloads -/

namespace Attribute

/-- What a custom attribute is made from. -/
inductive Payload
  | marker
  | countParamIndex (index : Nat)
  | countConst (count : Nat)
  | associatedEnum (name : Text)
  | functionPointer (code : Nat)
  | guid (g : Guid)
  deriving DecidableEq, Repr

/-- The order of what stands in a blob behind the prolog. -/
inductive Layout
  | empty
  | field
  | text
  | word
  | guid
  deriving DecidableEq, Repr

/-- What a blob says, part by part. -/
inductive Content
  | empty
  | field (elementType : UInt8) (name : Text) (value : Nat)
  | text (t : Text)
  | word (n : Nat)
  | guid (g : Guid)
  deriving DecidableEq, Repr

namespace Payload

/-- The blob of an attribute, if it has one. -/
def blob? : Payload → Option Blob
  | marker => some Attribute.marker
  | countParamIndex index => countParamIndex? index
  | countConst count => countConst? count
  | associatedEnum name => associatedEnum? name
  | functionPointer code => functionPointer? code
  | guid g => some (Attribute.guid g)

/-- The parts fit: numbers in words of two or of four bytes, and names behind a length. -/
def Fits : Payload → Prop
  | countParamIndex index => index < 0x10000
  | countConst count => count < 0x100000000
  | associatedEnum name => name.length ≤ 0x1FFFFFFF
  | functionPointer code => code < 0x100000000
  | _ => True

def content : Payload → Content
  | marker => .empty
  | countParamIndex index => .field 0x06 "CountParamIndex" index
  | countConst count => .field 0x08 "CountConst" count
  | associatedEnum name => .text name
  | functionPointer code => .word code
  | guid g => .guid g

def layout : Payload → Layout
  | marker => .empty
  | countParamIndex _ => .field
  | countConst _ => .field
  | associatedEnum _ => .text
  | functionPointer _ => .word
  | guid _ => .guid

end Payload

/-- Takes a blob of a layout. Every blob starts with the prolog `01 00`, and one without a named
argument ends with their count `00 00`. -/
def Layout.reader : Layout → Reader Content
  | empty => do
    Reader.exactly [0x01, 0x00]
    Reader.exactly [0x00, 0x00]
    return .empty
  | field => do
    Reader.exactly [0x01, 0x00]
    -- one named argument, and it is a field
    Reader.exactly [0x01, 0x00, 0x53]
    let elementType ← Reader.byte
    let name ← CountedString.takeShort
    let width ← StateT.lift (NamedField.width? elementType)
    let value ← Reader.word width
    return .field elementType name value
  | text => do
    Reader.exactly [0x01, 0x00]
    let t ← CountedString.take
    Reader.exactly [0x00, 0x00]
    return .text t
  | word => do
    Reader.exactly [0x01, 0x00]
    let n ← Reader.word 4
    Reader.exactly [0x00, 0x00]
    return .word n
  | guid => do
    Reader.exactly [0x01, 0x00]
    let b ← Reader.bytes 16
    let g ← StateT.lift (Guid.ofBlobBytes? b)
    Reader.exactly [0x00, 0x00]
    return .guid g

open Reader (takes_exactly takes_byte takes_word takes_bytes takes_lift takes_pure)

theorem takes_prolog : (Reader.exactly [0x01, 0x00]).Takes prolog () := takes_exactly prolog

theorem takes_noNamedArguments : (Reader.exactly [0x00, 0x00]).Takes noNamedArguments () :=
  takes_exactly noNamedArguments

theorem takes_marker : Layout.empty.reader.Takes marker .empty :=
  takes_prolog.bind (c := noNamedArguments ++ []) (takes_noNamedArguments.bind (takes_pure _))

theorem takes_namedField? {elementType : UInt8} {name : Text} {n width : Nat} {b : Blob}
    (h : namedField? elementType name n width = some b)
    (hwidth : NamedField.width? elementType = some width) :
    Layout.field.reader.Takes b (.field elementType name n) := by
  simp only [namedField?, Option.bind_eq_bind, Option.bind_eq_some_iff, Option.pure_def,
    Option.some.injEq] at h
  obtain ⟨front, hname, word, hword, rfl⟩ := h
  have hparts : prolog ++ [0x01, 0x00, 0x53, elementType] ++ front ++ word
      = prolog ++ ([0x01, 0x00, 0x53] ++ ([elementType] ++ (front ++ ([] ++ (word ++ []))))) := by
    simp
  rw [hparts]
  refine .bind takes_prolog (.bind (takes_exactly _) (.bind (takes_byte elementType) ?_))
  refine .bind (CountedString.takes_short? hname) (.bind (takes_lift hwidth) ?_)
  exact .bind (takes_word hword) (takes_pure _)

theorem takes_associatedEnum? {name : Text} {b : Blob} (h : associatedEnum? name = some b) :
    Layout.text.reader.Takes b (.text name) := by
  obtain ⟨front, hname, rfl⟩ := Option.map_eq_some_iff.mp h
  rw [← List.append_nil (prolog ++ front ++ noNamedArguments), List.append_assoc,
    List.append_assoc]
  refine .bind takes_prolog (.bind (CountedString.takes_encode? hname) ?_)
  exact .bind takes_noNamedArguments (takes_pure _)

theorem takes_functionPointer? {code : Nat} {b : Blob} (h : functionPointer? code = some b) :
    Layout.word.reader.Takes b (.word code) := by
  obtain ⟨word, hword, rfl⟩ := Option.map_eq_some_iff.mp h
  rw [← List.append_nil (prolog ++ word ++ noNamedArguments), List.append_assoc,
    List.append_assoc]
  refine .bind takes_prolog (.bind (takes_word hword) ?_)
  exact .bind takes_noNamedArguments (takes_pure _)

theorem takes_guid (g : Guid) : Layout.guid.reader.Takes (guid g) (.guid g) := by
  have hbytes : Guid.ofBlobBytes? g.reorder.bytes = some g :=
    Guid.ofBlobBytes?_eq_some_iff.mpr rfl
  rw [guid, ← List.append_nil (prolog ++ g.reorder.bytes ++ noNamedArguments), List.append_assoc,
    List.append_assoc, ← List.nil_append (noNamedArguments ++ [])]
  refine .bind takes_prolog (.bind (takes_bytes g.reorder.length_bytes) ?_)
  exact .bind (takes_lift hbytes) (.bind takes_noNamedArguments (takes_pure _))

namespace Payload

/-- The reader of its layout takes just what the attribute was made from. -/
theorem takes_blob? {p : Payload} {b : Blob} (h : p.blob? = some b) :
    p.layout.reader.Takes b p.content := by
  cases p with
  | marker =>
    cases h
    exact takes_marker
  | countParamIndex index => exact takes_namedField? h rfl
  | countConst count => exact takes_namedField? h rfl
  | associatedEnum name => exact takes_associatedEnum? h
  | functionPointer code => exact takes_functionPointer? h
  | guid g =>
    cases h
    exact takes_guid g

theorem isSome_blob?_iff {p : Payload} : p.blob?.isSome ↔ p.Fits := by
  cases p with
  | marker => exact iff_of_true rfl trivial
  | countParamIndex index => exact isSome_namedField?_iff (by decide)
  | countConst count => exact isSome_namedField?_iff (by decide)
  | associatedEnum name => exact isSome_associatedEnum?_iff
  | functionPointer code =>
    rw [blob?, functionPointer?, Option.isSome_map]
    exact LittleEndian.isSome_encode?_iff
  | guid g => exact iff_of_true rfl trivial

/-- Attributes that say the same are made from the same. -/
theorem content_injective {p q : Payload} (h : p.content = q.content) : p = q := by
  cases p <;> cases q <;> cases h <;> rfl

end Payload

end Attribute

open Attribute (Payload countParamIndex? countConst?)

/-- **Attributes read from their text.** An attribute has a blob if its parts fit. The blob has one
text, from which it is read back, and the reader of the layout takes the whole blob and gives what
the attribute was made from. No other attribute of the layout has that blob; in particular an array
size in one of its two kinds is never taken for one of the other. -/
theorem payload_texts_read_back (p : Payload) :
    ((∃ b, p.blob? = some b) ↔ p.Fits) ∧
      (∀ b, p.blob? = some b →
        (∀ t, Hex.ofDump? t = some b ↔ t = Hex.dump b) ∧
        p.layout.reader.run b = some (p.content, []) ∧
        ∀ q : Payload, q.layout = p.layout → q.blob? = some b → q = p) ∧
      ∀ index count b, countParamIndex? index = some b → countConst? count ≠ some b := by
  have hunique (p q : Payload) (b : Blob) (hlayout : q.layout = p.layout)
      (hp : p.blob? = some b) (hq : q.blob? = some b) : q = p := by
    have hpq := Payload.takes_blob? hp []
    rw [← hlayout, Payload.takes_blob? hq []] at hpq
    exact Payload.content_injective (Prod.mk.inj (Option.some.inj hpq)).1
  refine ⟨?_, fun b hb ↦ ⟨fun t ↦ Hex.ofDump?_eq_some_iff, ?_, ?_⟩, ?_⟩
  · rw [← Option.isSome_iff_exists, Payload.isSome_blob?_iff]
  · have hwhole := Payload.takes_blob? hb []
    rwa [List.append_nil] at hwhole
  · exact fun q hlayout hq ↦ hunique p q b hlayout hb hq
  · intro index count b hindex hcount
    cases hunique (.countParamIndex index) (.countConst count) b rfl hindex hcount

/-- The text of an array size of 300. -/
def countText : Text :=
  "01 00 01 00 53 08 0A 43 6F 75 6E 74 43 6F 6E 73 74 2C 01 00 00"

/-- The text of the name of an enumeration. -/
def nameText : Text := "01 00 08 41 72 63 46 6C 61 67 73 00 00"

/-- The text of the identity of an interface. -/
def identityText : Text :=
  "01 00 69 0F 17 23 C1 40 8A 27 00 00 00 05 00 09 00 00 00 00"

theorem payload_texts_read_back_from_texts :
    (∃ b, (Payload.countConst 300).blob? = some b ∧ Hex.ofDump? countText = some b ∧
      Attribute.Layout.field.reader.run b = some (.field 0x08 "CountConst" 300, []) ∧
      countParamIndex? 300 ≠ some b) ∧
    (∃ b, (Payload.associatedEnum "ArcFlags").blob? = some b ∧ Hex.ofDump? nameText = some b ∧
      Attribute.Layout.text.reader.run b = some (.text "ArcFlags", [])) ∧
    ∃ b, (Payload.guid (.ofInterface 5 9)).blob? = some b ∧ Hex.ofDump? identityText = some b ∧
      Attribute.Layout.guid.reader.run b = some (.guid (.ofInterface 5 9), []) := by
  have hread (p : Payload) (hp : p.Fits) (t : Text) (ht : p.blob?.map Hex.dump = some t) :
      ∃ b, p.blob? = some b ∧ Hex.ofDump? t = some b ∧
        p.layout.reader.run b = some (p.content, []) := by
    obtain ⟨hfits, hreads, -⟩ := payload_texts_read_back p
    obtain ⟨b, hb⟩ := hfits.mpr hp
    obtain ⟨htext, hreader, -⟩ := hreads b hb
    rw [hb, Option.map_some, Option.some.injEq] at ht
    exact ⟨b, hb, (htext t).mpr ht.symm, hreader⟩
  have hcount : (Payload.countConst 300).Fits := by
    show 300 < 0x100000000
    decide
  have hname : (Payload.associatedEnum "ArcFlags").Fits := by
    show 8 ≤ 0x1FFFFFFF
    decide
  obtain ⟨b, hb, hdump, hreader⟩ := hread (.countConst 300) hcount countText (by decide)
  refine ⟨⟨b, hb, hdump, hreader, fun h ↦ ?_⟩, ?_, ?_⟩
  · exact (payload_texts_read_back (.countConst 300)).2.2 300 300 b h hb
  · exact hread _ hname nameText (by decide)
  · exact hread (.guid (.ofInterface 5 9)) trivial identityText (by decide)

end NativeApi
