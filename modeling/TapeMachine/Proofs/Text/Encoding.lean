import TapeMachine.Submission

/-!
# Lines of encoded text

A newline is one byte in UTF-8, and this byte is no part of any other character. So a stream of bytes
may be cut into lines before it is decoded: the lines of an encoded text are the encoded lines of the
text, and bytes are text as a whole exactly if each of their lines is.
-/
namespace TapeMachine

/-! ### Characters and their bytes -/

/-- The bytes of a text. -/
def encoded (cs : List Char) : List UInt8 :=
  cs.flatMap String.utf8EncodeChar

theorem encoded_cons (c : Char) (cs : List Char) :
    encoded (c :: cs) = String.utf8EncodeChar c ++ encoded cs :=
  List.flatMap_cons

theorem encoded_append (cs cs' : List Char) : encoded (cs ++ cs') = encoded cs ++ encoded cs' :=
  List.flatMap_append

theorem toUTF8_eq_iff {text : String} {bytes : ByteArray} :
    text.toUTF8 = bytes ↔ encoded text.toList = bytes.data.toList := by
  have htext : text.toUTF8.data.toList = encoded text.toList := by
    rw [String.toUTF8_eq_toByteArray, ← String.utf8Encode_toList, List.utf8Encode,
      List.data_toByteArray, encoded]
  rw [ByteArray.ext_iff, ← Array.toList_inj, htext]

theorem toUTF8_inj {text text' : String} : text.toUTF8 = text'.toUTF8 ↔ text = text' := by
  rw [String.toUTF8_eq_toByteArray, String.toUTF8_eq_toByteArray, String.toByteArray_inj]

theorem toUTF8_eq_empty_iff {text : String} : text.toUTF8 = .empty ↔ text = "" :=
  @toUTF8_inj text ""

theorem isValidUTF8_iff {bytes : ByteArray} :
    bytes.IsValidUTF8 ↔ ∃ text : String, text.toUTF8 = bytes := by
  constructor
  · intro h
    exact ⟨String.ofByteArray bytes h, rfl⟩
  · rintro ⟨text, rfl⟩
    exact text.isValidUTF8

/-- Decoding finds a text exactly if it is the one that is encoded. -/
theorem fromUTF8?_eq_some_iff {bytes : ByteArray} {text : String} :
    String.fromUTF8? bytes = some text ↔ text.toUTF8 = bytes := by
  rw [String.toUTF8_eq_toByteArray, String.fromUTF8?]
  by_cases h : bytes.IsValidUTF8
  · rw [dif_pos h, Option.some.injEq, ← String.toByteArray_inj]
    exact eq_comm
  · rw [dif_neg h]
    constructor
    · intro hnone
      exact absurd hnone (by simp)
    · rintro rfl
      exact absurd text.isValidUTF8 h

/-- No byte of another character can be taken for a newline. -/
theorem newline_not_mem_utf8EncodeChar {c : Char} (h : c ≠ '\n') :
    10 ∉ String.utf8EncodeChar c := by
  have hval : c.val.toNat ≠ 10 := fun hc => h (Char.toNat_inj.mp hc)
  have hsame : c.toNat = c.val.toNat := rfl
  unfold String.utf8EncodeChar
  simp only
  split
  · simp [← UInt8.toNat_inj]
    omega
  · split
    · simp [← UInt8.toNat_inj]
      omega
    · split
      · simp [← UInt8.toNat_inj]
        omega
      · simp [← UInt8.toNat_inj]
        omega

/-! ### Lines -/

section

variable {α : Type}

/-- Lines with something in front of the first one. -/
def extendFirst (front : List α) : List (List α) → List (List α)
  | [] => [front]
  | line :: lines => (front ++ line) :: lines

theorem flatten_extendFirst (front : List α) (lines : List (List α)) :
    (extendFirst front lines).flatten = front ++ lines.flatten := by
  cases lines <;> simp [extendFirst]

theorem extendFirst_extendFirst (front front' : List α) (lines : List (List α)) :
    extendFirst front (extendFirst front' lines) = extendFirst (front ++ front') lines := by
  cases lines <;> simp [extendFirst]

end

theorem byteLines_newline (rest : List UInt8) : byteLines (10 :: rest) = [10] :: byteLines rest :=
  rfl

theorem byteLines_cons {b : UInt8} (h : b ≠ 10) (rest : List UInt8) :
    byteLines (b :: rest) = extendFirst [b] (byteLines rest) := by
  rw [byteLines, if_neg h]
  cases byteLines rest <;> rfl

theorem flatten_byteLines (bytes : List UInt8) : (byteLines bytes).flatten = bytes := by
  induction bytes with
  | nil => rfl
  | cons b rest ih =>
    by_cases h : b = 10
    · rw [h, byteLines_newline, List.flatten_cons, ih]
      rfl
    · rw [byteLines_cons h, flatten_extendFirst, ih]
      rfl

theorem byteLines_append {front : List UInt8} (hne : front ≠ []) (h : 10 ∉ front)
    (rest : List UInt8) : byteLines (front ++ rest) = extendFirst front (byteLines rest) := by
  induction front with
  | nil => exact absurd rfl hne
  | cons b front ih =>
    rw [List.mem_cons, not_or] at h
    rw [List.cons_append, byteLines_cons (Ne.symm h.1)]
    by_cases hlast : front = []
    · rw [hlast, List.nil_append]
    · rw [ih hlast h.2, extendFirst_extendFirst]
      rfl

/-- The lines of a text, each with the newline that ends it. -/
def textLines : List Char → List (List Char)
  | [] => []
  | c :: rest => if c = '\n' then [c] :: textLines rest else extendFirst [c] (textLines rest)

theorem flatten_textLines (cs : List Char) : (textLines cs).flatten = cs := by
  induction cs with
  | nil => rfl
  | cons c rest ih =>
    rw [textLines]
    split
    · rw [List.flatten_cons, ih]
      rfl
    · rw [flatten_extendFirst, ih]
      rfl

theorem map_encoded_extendFirst (front : List Char) (lines : List (List Char)) :
    (extendFirst front lines).map encoded = extendFirst (encoded front) (lines.map encoded) := by
  cases lines <;> simp [extendFirst, encoded_append]

/-- By induction on the text: a character is encoded within one line. -/
theorem byteLines_encoded (cs : List Char) : byteLines (encoded cs) = (textLines cs).map encoded := by
  induction cs with
  | nil => rfl
  | cons c rest ih =>
    rw [encoded_cons, textLines]
    by_cases h : c = '\n'
    · rw [if_pos h, h, List.map_cons, ← ih]
      rfl
    · rw [if_neg h, map_encoded_extendFirst, ← ih]
      have hsingle : encoded [c] = String.utf8EncodeChar c := List.append_nil _
      rw [hsingle]
      exact byteLines_append String.utf8EncodeChar_ne_nil (newline_not_mem_utf8EncodeChar h) _

theorem join_textLines (text : String) :
    String.join ((textLines text.toList).map String.ofList) = text := by
  rw [← String.toList_inj, String.toList_join, List.flatMap_map]
  simp [flatten_textLines]

/-! ### Reading lines -/

theorem encoded_join (texts : List String) :
    encoded (String.join texts).toList = (texts.map fun text => encoded text.toList).flatten := by
  rw [String.toList_join, encoded, List.flatMap_assoc]
  rfl

/-- Lines are read as texts exactly if they are these texts encoded. -/
theorem decodeLines_eq_some_iff {lines : List (List UInt8)} {texts : List String} :
    decodeLines lines = some texts ↔ texts.map (fun text => encoded text.toList) = lines := by
  induction lines generalizing texts with
  | nil =>
    rw [decodeLines, Option.some.injEq, List.map_eq_nil_iff]
    exact eq_comm
  | cons line lines ih =>
    have hline (text : String) :
        String.fromUTF8? ⟨line.toArray⟩ = some text ↔ encoded text.toList = line :=
      fromUTF8?_eq_some_iff.trans toUTF8_eq_iff
    rw [decodeLines]
    cases texts with
    | nil => cases String.fromUTF8? ⟨line.toArray⟩ <;> simp
    | cons text texts =>
      rw [List.map_cons, List.cons.injEq, ← hline, ← ih, and_comm]
      cases String.fromUTF8? ⟨line.toArray⟩ <;> simp

/-- What is read line by line is the text of all the bytes. -/
theorem toUTF8_join_of_decodeLines {bytes : ByteArray} {texts : List String}
    (h : decodeLines (byteLines bytes.data.toList) = some texts) :
    (String.join texts).toUTF8 = bytes := by
  rw [toUTF8_eq_iff, encoded_join, decodeLines_eq_some_iff.mp h, flatten_byteLines]

/-- No line of an encoded text is refused. -/
theorem decodeLines_toUTF8 (text : String) :
    decodeLines (byteLines text.toUTF8.data.toList) =
      some ((textLines text.toList).map String.ofList) := by
  rw [decodeLines_eq_some_iff, ← toUTF8_eq_iff.mp rfl, byteLines_encoded, List.map_map]
  apply List.map_congr_left
  intro line _
  exact congrArg encoded String.toList_ofList

end TapeMachine
