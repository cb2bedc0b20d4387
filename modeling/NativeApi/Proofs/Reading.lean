import NativeApi.Collection.Declare
import NativeApi.Proofs.Literals

/-!
# Reading declarations

Whether a declaration is read, and as which entry, has two sides. `Reads` is about the operands
alone: what their texts denote, given the types that a model knows. `State.Admits` is about the
entry alone: what has to have been declared before it, and what must not. `State.read_eq_ok`
joins them, so that later proofs deal with one side at a time and with no check in its order.
-/

namespace NativeApi

/-! ## Steps of a reading -/

section Except

variable {ε α β : Type}

/-- Two steps succeed if the first does and the second does with what the first gave. -/
theorem bind_eq_ok {x : Except ε α} {f : α → Except ε β} {b : β} :
    (x >>= f) = .ok b ↔ ∃ a, x = .ok a ∧ f a = .ok b := by
  constructor
  · intro h
    cases x with
    | error e => exact absurd h (by simp [bind, Except.bind])
    | ok a => exact ⟨a, rfl, h⟩
  · rintro ⟨a, rfl, h⟩
    exact h

theorem pure_eq_ok {a b : α} : (pure a : Except ε α) = .ok b ↔ a = b :=
  Except.ok.injEq a b ▸ Iff.rfl

end Except

theorem requireContext_eq_ok {α : Type} {keyword : Keyword} {context : Context} {o : Option α}
    {a : α} : requireContext keyword context o = .ok a ↔ o = some a := by
  cases o with
  | none => simp [requireContext]
  | some b => simp [requireContext]

theorem State.requireHeader_eq_ok {s : State} {keyword : Keyword} {h : Header} :
    s.requireHeader keyword = .ok h ↔ s.model.header = some h := requireContext_eq_ok

/-! ## Numbers -/

/-- The text spells a number below a bound. -/
def Denotes (bound : Nat) (t : Text) (n : Nat) : Prop := IntegerLiteral.Spells t n ∧ n < bound

theorem readQuantity_eq_ok {quantity : Quantity} {t : Text} {i : Int} :
    readQuantity quantity t = .ok i ↔ Text.signed? t = some i := by
  rw [readQuantity]
  cases Text.signed? t with
  | none => simp
  | some j => simp

theorem boundQuantity_eq_ok {quantity : Quantity} {bound n : Nat} {i : Int} :
    boundQuantity quantity bound i = .ok n ↔ i = n ∧ n < bound := by
  rw [boundQuantity]
  split
  · rename_i h
    rw [Except.ok.injEq]
    omega
  · rename_i h
    simp only [reduceCtorEq, false_iff]
    omega

/-- Numbers below a bound that a signed word can hold are read as what they denote. -/
theorem denotes_iff {bound : Nat} (hbound : bound ≤ 0x8000000000000000) {t : Text} {n : Nat} :
    Denotes bound t n ↔ ∃ i, Text.signed? t = some i ∧ i = n ∧ n < bound := by
  simp only [IntegerLiteral.signed?_eq_some_iff, Denotes, Text.signedBound]
  constructor
  · rintro ⟨hspells, hn⟩
    exact ⟨n, ⟨hspells, by omega, by omega⟩, rfl, hn⟩
  · rintro ⟨i, ⟨hspells, -, -⟩, rfl, hn⟩
    exact ⟨hspells, hn⟩

theorem readDepth_eq_ok {t : Text} {n : Nat} :
    readDepth t = .ok n ↔ Denotes word32Bound t n := by
  rw [denotes_iff (by decide), readDepth, bind_eq_ok]
  simp only [readQuantity_eq_ok, boundQuantity_eq_ok]

/-! ## Conventions and directions -/

/-- A number for the calling convention of a function pointer; 1 if it is left out. -/
def CodeIs (t : Option Text) (code : UInt32) : Prop :=
  match t with
  | none => code = 1
  | some t => ∃ n, Denotes word32Bound t n ∧ code = UInt32.ofNat n

theorem readCode_eq_ok {t : Option Text} {code : UInt32} :
    readCode t = .ok code ↔ CodeIs t code := by
  cases t with
  | none => simp [readCode, CodeIs, eq_comm]
  | some t =>
    rw [readCode, CodeIs]
    simp only [bind_eq_ok, pure_eq_ok, readQuantity_eq_ok, boundQuantity_eq_ok,
      denotes_iff (show word32Bound ≤ _ by decide)]
    constructor
    · rintro ⟨i, hi, n, hn, rfl⟩
      exact ⟨n, ⟨i, hi, hn⟩, rfl⟩
    · rintro ⟨n, ⟨i, hi, hn⟩, rfl⟩
      exact ⟨i, hi, n, hn, rfl⟩

/-- A name for the calling convention of a function; the platform's own if it is left out. -/
def ConventionIs (t : Option Text) (convention : Text) : Prop :=
  match t with
  | none => convention = "winapi"
  | some t => t ∈ conventions ∧ convention = t

theorem readConvention_eq_ok {t : Option Text} {convention : Text} :
    readConvention t = .ok convention ↔ ConventionIs t convention := by
  cases t with
  | none => simp [readConvention, ConventionIs, eq_comm]
  | some t =>
    rw [readConvention, ConventionIs]
    by_cases h : t ∈ conventions
    · simp [h, eq_comm]
    · simp [h]

namespace Direction

/-- How a direction is written. -/
def text : Direction → Text
  | input => "in"
  | output => "out"
  | both => "inout"

end Direction

theorem readDirection_eq_ok {t : Text} {d : Direction} :
    readDirection t = .ok d ↔ t = d.text := by
  rw [readDirection]
  constructor
  · intro h
    split at h
    · rename_i ht
      cases h
      exact ht
    · split at h
      · rename_i ht
        cases h
        exact ht
      · split at h
        · rename_i ht
          cases h
          exact ht
        · cases h
  · rintro rfl
    cases d with
    | input => rfl
    | output => rfl
    | both => rfl

/-! ## Attribute words -/

/-- Digits give an array size of a form if they denote a number within its bound. -/
theorem SizeForm.size?_eq_some_iff {form : SizeForm} {digits : Text} {size : ArraySize} :
    form.size? digits = some size ↔
      ∃ n, Text.number? 10 digits = some n ∧ n < form.bound ∧ size = form.size n := by
  have hbound : form.bound ≤ Text.wordBound := by cases form <;> decide
  rw [size?, Option.map_eq_some_iff]
  simp only [Text.word?, Option.filter_eq_some_iff, decide_eq_true_iff]
  constructor
  · rintro ⟨n, ⟨⟨hn, -⟩, hlt⟩, rfl⟩
    exact ⟨n, hn, hlt, rfl⟩
  · rintro ⟨n, hn, hlt, rfl⟩
    exact ⟨n, ⟨⟨hn, Nat.lt_of_lt_of_le hlt hbound⟩, hlt⟩, rfl⟩

namespace Argument

/-- What an argument becomes with a word that is applied to it. -/
inductive Takes (a : Argument) : Text → Argument → Prop
  | nothing : Takes a [] a
  | const : Takes a "const" { a with const := true }
  | comOut : Takes a "com_out" { a with comOut := true }
  | size {word digits : Text} {form : SizeForm} {size : ArraySize}
      (hword : SizeForm.ofWord? word = some (form, digits)) (ha : a.size = none)
      (hsize : form.size? digits = some size) : Takes a word { a with size := some size }

theorem applyWord_eq_ok {a b : Argument} {word : Text} :
    a.applyWord word = .ok b ↔ a.Takes word b := by
  constructor
  · intro h
    rw [applyWord] at h
    by_cases hempty : word = []
    · rw [if_pos hempty] at h
      cases h
      rw [hempty]
      exact .nothing
    rw [if_neg hempty] at h
    by_cases hconst : word = "const"
    · rw [if_pos hconst] at h
      cases h
      rw [hconst]
      exact .const
    rw [if_neg hconst] at h
    by_cases hcom : word = "com_out"
    · rw [if_pos hcom] at h
      cases h
      rw [hcom]
      exact .comOut
    rw [if_neg hcom] at h
    cases hword : SizeForm.ofWord? word with
    | none => simp [hword] at h
    | some pair =>
      obtain ⟨form, digits⟩ := pair
      cases ha : a.size with
      | some size => simp [hword, ha] at h
      | none =>
        cases hsize : form.size? digits with
        | none => simp [hword, ha, hsize] at h
        | some size =>
          simp only [hword, ha, hsize] at h
          cases h
          exact .size hword ha hsize
  · intro h
    cases h with
    | nothing => rfl
    | const => rfl
    | comOut => rfl
    | size hword ha hsize =>
      -- No other word starts as a size does and goes on with digits.
      have hempty : word ≠ [] := by rintro rfl; cases hword
      have hconst : word ≠ "const" := by rintro rfl; cases hword
      have hcom : word ≠ "com_out" := by rintro rfl; cases hword
      rw [applyWord, if_neg hempty, if_neg hconst, if_neg hcom]
      simp [hword, ha, hsize]

/-- What every word that is taken preserves is the case behind a list of words. -/
theorem foldlM_applyWord_induction {P : Argument → Prop}
    (htakes : ∀ a word b, P a → a.Takes word b → P b) {words : List Text} {a b : Argument}
    (h : words.foldlM applyWord a = .ok b) (ha : P a) : P b := by
  induction words generalizing a with
  | nil =>
    cases h
    exact ha
  | cons word words ih =>
    rw [List.foldlM_cons, bind_eq_ok] at h
    obtain ⟨next, hword, hwords⟩ := h
    exact ih hwords (htakes a word next ha (applyWord_eq_ok.mp hword))

end Argument

/-! ## Declarations -/

/-- What the operands of a declaration denote in a model. Types are resolved with what the model
declares; every other operand stands for itself, or for what its text alone denotes. -/
inductive Reads (m : Model) : Declaration → Entry → Prop
  | header (name version : Text) : Reads m (.header name version) (.header ⟨name, version⟩)
  | functionPointer {name type depth : Text} {code : Option Text} {n : Nat} {c : UInt32}
      (hn : Denotes word32Bound depth n) (hc : CodeIs code c) :
      Reads m (.functionPointer name type depth code)
        (.functionPointer name (m.enrich ⟨type, n, none⟩) c)
  | dll (name : Text) : Reads m (.dll name) (.dll name)
  | function {name type depth : Text} {convention : Option Text} {n : Nat} {c : Text}
      (hn : Denotes word32Bound depth n) (hc : ConventionIs convention c) :
      Reads m (.function name type depth convention)
        (.function name (m.enrich ⟨type, n, none⟩) c)
  | argument {optional : Bool} {name type depth attributes : Text} {d : Direction} {n : Nat}
      {a : Argument} (hn : Denotes word32Bound depth n)
      (ha : (Argument.plain name (m.enrich ⟨type, n, none⟩) d optional).applyWords attributes
        = .ok a) :
      Reads m (.argument optional d.text name type depth attributes) (.argument a)
  | interface {name group value base : Text} {g v : Nat} (hg : Denotes 256 group g)
      (hv : Denotes 256 value v) :
      Reads m (.interface name group value base)
        (.interface name (UInt8.ofNat g) (UInt8.ofNat v) (TypeReference.named base))
  | method {name type depth : Text} {n : Nat} (hn : Denotes word32Bound depth n) :
      Reads m (.method name type depth) (.method name (m.enrich ⟨type, n, none⟩))
  | standardMethod (name : Text) :
      Reads m (.standardMethod name) (.method name (TypeReference.named "HRESULT"))
  | enumeration (flags : Bool) (name base : Text) :
      Reads m (.enumeration flags name base)
        (.enumeration name (TypeReference.named base) flags)
  | variant {name value : Text} {l : IntegerLiteral} (hl : IntegerLiteral.ofText? value = some l) :
      Reads m (.variant name value) (.variant ⟨name, l⟩)
  | struct (name : Text) : Reads m (.struct name) (.struct name)
  | field {name type depth : Text} {n : Nat} (hn : Denotes word32Bound depth n) :
      Reads m (.field name type depth) (.field ⟨name, m.enrich ⟨type, n, none⟩⟩)
  | guid {name value : Text} {g : Guid} (hg : Guid.ofText? value = some g) :
      Reads m (.guid name value) (.guid ⟨name, g, g.text⟩)

namespace Model

/-- A literal lies in the range of a type, if the type has one. -/
def Holds (m : Model) (type : TypeReference) (l : IntegerLiteral) : Prop :=
  ∀ r ∈ IntegerRange.ofIlType? (m.ilType type), r.contains l = true

end Model

namespace State

/-- The enumeration that variants belong to. -/
def latestEnumeration? (s : State) : Option Enumeration :=
  s.scope.enumeration.bind fun index ↦ s.model.enumerations[index]?

/-- What a state asks of an entry. -/
def Admits (s : State) : Entry → Prop
  | .header _ => s.model.header = none
  | .function .. => s.model.header.isSome ∧ s.scope.dll.isSome
  | .argument _ => s.model.header.isSome ∧ s.scope.callable.isSome
  | .method .. => s.model.header.isSome ∧ s.scope.interface.isSome
  | .enumeration name .. => s.model.header.isSome ∧ s.model.findEnumeration? name = none
  | .variant v => s.model.header.isSome ∧ ∃ e, s.latestEnumeration? = some e ∧
      e.hasVariant v.name = false ∧ s.model.Holds e.base v.value
  | .field _ => s.model.header.isSome ∧ s.scope.struct.isSome
  | _ => s.model.header.isSome

variable {s : State}

theorem readHeader_eq_ok {name version : Text} {e : Entry} :
    s.readHeader name version = .ok e ↔
      Reads s.model (.header name version) e ∧ s.Admits e := by
  rw [readHeader]
  constructor
  · intro h
    split at h
    · cases h
    · rename_i hs
      cases h
      exact ⟨.header name version, hs⟩
  · rintro ⟨hr, ha⟩
    cases hr
    simp only [Admits] at ha
    simp only [ha]

theorem readFunctionPointer_eq_ok {name type depth : Text} {code : Option Text} {e : Entry} :
    s.readFunctionPointer name type depth code = .ok e ↔
      Reads s.model (.functionPointer name type depth code) e ∧ s.Admits e := by
  simp only [readFunctionPointer, bind_eq_ok, pure_eq_ok, requireHeader_eq_ok, readDepth_eq_ok,
    readCode_eq_ok]
  constructor
  · rintro ⟨h, hs, n, hn, c, hc, rfl⟩
    exact ⟨.functionPointer hn hc, Option.isSome_of_eq_some hs⟩
  · rintro ⟨hr, ha⟩
    cases hr with
    | functionPointer hn hc =>
      obtain ⟨h, hs⟩ := Option.isSome_iff_exists.mp ha
      exact ⟨h, hs, _, hn, _, hc, rfl⟩

theorem readDll_eq_ok {name : Text} {e : Entry} :
    s.readDll name = .ok e ↔ Reads s.model (.dll name) e ∧ s.Admits e := by
  simp only [readDll, bind_eq_ok, pure_eq_ok, requireHeader_eq_ok]
  constructor
  · rintro ⟨h, hs, rfl⟩
    exact ⟨.dll name, Option.isSome_of_eq_some hs⟩
  · rintro ⟨hr, ha⟩
    cases hr
    obtain ⟨h, hs⟩ := Option.isSome_iff_exists.mp ha
    exact ⟨h, hs, rfl⟩

theorem readFunction_eq_ok {name type depth : Text} {convention : Option Text} {e : Entry} :
    s.readFunction name type depth convention = .ok e ↔
      Reads s.model (.function name type depth convention) e ∧ s.Admits e := by
  simp only [readFunction, bind_eq_ok, pure_eq_ok, requireHeader_eq_ok, requireContext_eq_ok,
    readDepth_eq_ok, readConvention_eq_ok]
  constructor
  · rintro ⟨h, hs, dll, hd, n, hn, c, hc, rfl⟩
    exact ⟨.function hn hc, Option.isSome_of_eq_some hs, Option.isSome_of_eq_some hd⟩
  · rintro ⟨hr, ha⟩
    cases hr with
    | function hn hc =>
      obtain ⟨h, hs⟩ := Option.isSome_iff_exists.mp ha.1
      obtain ⟨dll, hd⟩ := Option.isSome_iff_exists.mp ha.2
      exact ⟨h, hs, dll, hd, _, hn, _, hc, rfl⟩

theorem readArgument_eq_ok {keyword : Keyword} {optional : Bool}
    {direction name type depth attributes : Text} {e : Entry} :
    s.readArgument keyword optional direction name type depth attributes = .ok e ↔
      Reads s.model (.argument optional direction name type depth attributes) e ∧ s.Admits e := by
  simp only [readArgument, bind_eq_ok, pure_eq_ok, requireHeader_eq_ok, requireContext_eq_ok,
    readDirection_eq_ok, readDepth_eq_ok]
  constructor
  · rintro ⟨h, hs, slot, hc, d, rfl, n, hn, a, ha, rfl⟩
    exact ⟨.argument hn ha, Option.isSome_of_eq_some hs, Option.isSome_of_eq_some hc⟩
  · rintro ⟨hr, ha⟩
    cases hr with
    | argument hn hwords =>
      obtain ⟨h, hs⟩ := Option.isSome_iff_exists.mp ha.1
      obtain ⟨slot, hc⟩ := Option.isSome_iff_exists.mp ha.2
      exact ⟨h, hs, slot, hc, _, rfl, _, hn, _, hwords, rfl⟩

theorem readInterface_eq_ok {name group value base : Text} {e : Entry} :
    s.readInterface name group value base = .ok e ↔
      Reads s.model (.interface name group value base) e ∧ s.Admits e := by
  simp only [readInterface, bind_eq_ok, pure_eq_ok, requireHeader_eq_ok, readQuantity_eq_ok,
    boundQuantity_eq_ok]
  constructor
  · rintro ⟨h, hs, i, hi, j, hj, g, hg, v, hv, rfl⟩
    exact ⟨.interface ((denotes_iff (by decide)).mpr ⟨i, hi, hg⟩)
      ((denotes_iff (by decide)).mpr ⟨j, hj, hv⟩), Option.isSome_of_eq_some hs⟩
  · rintro ⟨hr, ha⟩
    cases hr with
    | interface hg hv =>
      obtain ⟨h, hs⟩ := Option.isSome_iff_exists.mp ha
      obtain ⟨i, hi, hg⟩ := (denotes_iff (by decide)).mp hg
      obtain ⟨j, hj, hv⟩ := (denotes_iff (by decide)).mp hv
      exact ⟨h, hs, i, hi, j, hj, _, hg, _, hv, rfl⟩

theorem readMethod_eq_ok {name type depth : Text} {e : Entry} :
    s.readMethod name type depth = .ok e ↔
      Reads s.model (.method name type depth) e ∧ s.Admits e := by
  simp only [readMethod, bind_eq_ok, pure_eq_ok, requireHeader_eq_ok, requireContext_eq_ok,
    readDepth_eq_ok]
  constructor
  · rintro ⟨h, hs, index, hi, n, hn, rfl⟩
    exact ⟨.method hn, Option.isSome_of_eq_some hs, Option.isSome_of_eq_some hi⟩
  · rintro ⟨hr, ha⟩
    cases hr with
    | method hn =>
      obtain ⟨h, hs⟩ := Option.isSome_iff_exists.mp ha.1
      obtain ⟨index, hi⟩ := Option.isSome_iff_exists.mp ha.2
      exact ⟨h, hs, index, hi, _, hn, rfl⟩

theorem readStandardMethod_eq_ok {name : Text} {e : Entry} :
    s.readStandardMethod name = .ok e ↔
      Reads s.model (.standardMethod name) e ∧ s.Admits e := by
  simp only [readStandardMethod, bind_eq_ok, pure_eq_ok, requireHeader_eq_ok,
    requireContext_eq_ok]
  constructor
  · rintro ⟨h, hs, index, hi, rfl⟩
    exact ⟨.standardMethod name, Option.isSome_of_eq_some hs, Option.isSome_of_eq_some hi⟩
  · rintro ⟨hr, ha⟩
    cases hr
    obtain ⟨h, hs⟩ := Option.isSome_iff_exists.mp ha.1
    obtain ⟨index, hi⟩ := Option.isSome_iff_exists.mp ha.2
    exact ⟨h, hs, index, hi, rfl⟩

theorem readEnumeration_eq_ok {keyword : Keyword} {flags : Bool} {name base : Text} {e : Entry} :
    s.readEnumeration keyword flags name base = .ok e ↔
      Reads s.model (.enumeration flags name base) e ∧ s.Admits e := by
  simp only [readEnumeration, bind_eq_ok, requireHeader_eq_ok]
  constructor
  · rintro ⟨h, hs, hread⟩
    split at hread
    · cases hread
    · rename_i hfind
      cases hread
      exact ⟨.enumeration flags name base, Option.isSome_of_eq_some hs, by simpa using hfind⟩
  · rintro ⟨hr, ha⟩
    cases hr
    obtain ⟨h, hs⟩ := Option.isSome_iff_exists.mp ha.1
    refine ⟨h, hs, ?_⟩
    simp [ha.2]

theorem readVariantOf_eq_ok {d : Enumeration} {name value : Text} {v : Variant} :
    s.readVariantOf d name value = .ok v ↔
      v.name = name ∧ IntegerLiteral.ofText? value = some v.value ∧ d.hasVariant name = false ∧
        s.model.Holds d.base v.value := by
  rw [readVariantOf]
  constructor
  · intro h
    split at h
    · cases h
    · rename_i hv
      have hv : d.hasVariant name = false := by simpa using hv
      split at h
      · cases h
      · rename_i l hl
        dsimp only at h
        split at h
        · rename_i hr
          cases h
          exact ⟨rfl, hl, hv, fun r hmem ↦ by rw [hr] at hmem; cases hmem⟩
        · rename_i range hr
          split at h
          · rename_i hc
            cases h
            refine ⟨rfl, hl, hv, fun r hmem ↦ ?_⟩
            rw [hr] at hmem
            cases hmem
            exact hc
          · cases h
  · rintro ⟨rfl, hl, hv, hr⟩
    rw [if_neg (by simp [hv])]
    simp only [hl]
    split
    · rfl
    · rename_i range hrange
      rw [if_pos (hr range hrange)]

theorem readVariant_eq_ok {name value : Text} {e : Entry} :
    s.readVariant name value = .ok e ↔ Reads s.model (.variant name value) e ∧ s.Admits e := by
  simp only [readVariant, bind_eq_ok, pure_eq_ok, requireHeader_eq_ok, requireContext_eq_ok,
    readVariantOf_eq_ok]
  constructor
  · rintro ⟨h, hs, index, hi, d, hd, v, ⟨rfl, hl, hv, hr⟩, rfl⟩
    have hlatest : s.latestEnumeration? = some d := by
      rw [latestEnumeration?, hi, Option.bind_some, hd]
    exact ⟨.variant hl, Option.isSome_of_eq_some hs, d, hlatest, hv, hr⟩
  · rintro ⟨hreads, ha⟩
    cases hreads with
    | variant hl =>
      obtain ⟨hs, d, hd, hv, hr⟩ := ha
      obtain ⟨h, hs⟩ := Option.isSome_iff_exists.mp hs
      obtain ⟨index, hi, hd⟩ := Option.bind_eq_some_iff.mp hd
      exact ⟨h, hs, index, hi, d, hd, _, ⟨rfl, hl, hv, hr⟩, rfl⟩

theorem readStruct_eq_ok {name : Text} {e : Entry} :
    s.readStruct name = .ok e ↔ Reads s.model (.struct name) e ∧ s.Admits e := by
  simp only [readStruct, bind_eq_ok, pure_eq_ok, requireHeader_eq_ok]
  constructor
  · rintro ⟨h, hs, rfl⟩
    exact ⟨.struct name, Option.isSome_of_eq_some hs⟩
  · rintro ⟨hr, ha⟩
    cases hr
    obtain ⟨h, hs⟩ := Option.isSome_iff_exists.mp ha
    exact ⟨h, hs, rfl⟩

theorem readField_eq_ok {name type depth : Text} {e : Entry} :
    s.readField name type depth = .ok e ↔
      Reads s.model (.field name type depth) e ∧ s.Admits e := by
  simp only [readField, bind_eq_ok, pure_eq_ok, requireHeader_eq_ok, requireContext_eq_ok,
    readDepth_eq_ok]
  constructor
  · rintro ⟨h, hs, index, hi, n, hn, rfl⟩
    exact ⟨.field hn, Option.isSome_of_eq_some hs, Option.isSome_of_eq_some hi⟩
  · rintro ⟨hr, ha⟩
    cases hr with
    | field hn =>
      obtain ⟨h, hs⟩ := Option.isSome_iff_exists.mp ha.1
      obtain ⟨index, hi⟩ := Option.isSome_iff_exists.mp ha.2
      exact ⟨h, hs, index, hi, _, hn, rfl⟩

theorem readGuid_eq_ok {name value : Text} {e : Entry} :
    s.readGuid name value = .ok e ↔ Reads s.model (.guid name value) e ∧ s.Admits e := by
  simp only [readGuid, bind_eq_ok, requireHeader_eq_ok]
  constructor
  · rintro ⟨h, hs, hread⟩
    split at hread
    · cases hread
    · rename_i g hg
      cases hread
      exact ⟨.guid hg, Option.isSome_of_eq_some hs⟩
  · rintro ⟨hr, ha⟩
    cases hr with
    | guid hg =>
      obtain ⟨h, hs⟩ := Option.isSome_iff_exists.mp ha
      refine ⟨h, hs, ?_⟩
      rw [hg]

/-- **Reading splits in two.** A declaration is read as an entry exactly if that is what its
operands denote and the state admits the entry. -/
theorem read_eq_ok {d : Declaration} {e : Entry} :
    s.read d = .ok e ↔ Reads s.model d e ∧ s.Admits e := by
  cases d with
  | header name version => exact readHeader_eq_ok
  | functionPointer name type depth code => exact readFunctionPointer_eq_ok
  | dll name => exact readDll_eq_ok
  | function name type depth convention => exact readFunction_eq_ok
  | argument optional direction name type depth attributes => exact readArgument_eq_ok
  | interface name group value base => exact readInterface_eq_ok
  | method name type depth => exact readMethod_eq_ok
  | standardMethod name => exact readStandardMethod_eq_ok
  | enumeration flags name base => exact readEnumeration_eq_ok
  | variant name value => exact readVariant_eq_ok
  | struct name => exact readStruct_eq_ok
  | field name type depth => exact readField_eq_ok
  | guid name value => exact readGuid_eq_ok

end State

end NativeApi
