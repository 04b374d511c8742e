import Mathlib
import ScriptToLua.Proofs.Options.Pieces

/-!
The grammar of JSON, and that of JSON with comments and trailing commas. A text spells tokens, with
white space and possibly comments between them; tokens write a document. Both grammars are the same
up to what may stand between tokens and whether a comma may follow the last item of an array or an
object.
-/

namespace ScriptToLua.Options

section Words

def IsDigits (cs : List Char) : Prop := cs ≠ [] ∧ ∀ c ∈ cs, c.isDigit

/-- The part of a number before the point. It begins with a zero only if it is that zero. -/
def IsWhole (cs : List Char) : Prop := IsDigits cs ∧ (cs.head? = some '0' → cs = ['0'])

def IsFraction (cs : List Char) : Prop := cs = [] ∨ ∃ ds, IsDigits ds ∧ cs = '.' :: ds

def IsExponent (cs : List Char) : Prop :=
  cs = [] ∨ ∃ e sign ds, (e = 'e' ∨ e = 'E') ∧ sign ∈ [[], ['+'], ['-']] ∧ IsDigits ds ∧
    cs = e :: (sign ++ ds)

def IsNumber (cs : List Char) : Prop :=
  ∃ sign whole fraction exponent, sign ∈ [[], ['-']] ∧ IsWhole whole ∧ IsFraction fraction ∧
    IsExponent exponent ∧ cs = sign ++ whole ++ fraction ++ exponent

/-- Numbers and the names of constants. -/
def IsWord (cs : List Char) : Prop :=
  cs = ['t', 'r', 'u', 'e'] ∨ cs = ['f', 'a', 'l', 's', 'e'] ∨ cs = ['n', 'u', 'l', 'l'] ∨
    IsNumber cs

/-- The characters that words are made of. -/
def isWordChar (c : Char) : Bool := c.isAlphanum || c = '+' || c = '-' || c = '.'

theorem isWordChar_of_isDigit {c : Char} (h : c.isDigit) : isWordChar c := by
  simp [isWordChar, Char.isAlphanum, h]

theorem IsDigits.isWordChar {cs : List Char} (h : IsDigits cs) : cs.all isWordChar :=
  List.all_eq_true.2 fun c hc => isWordChar_of_isDigit (h.2 c hc)

theorem IsFraction.isWordChar {cs : List Char} (h : IsFraction cs) : cs.all isWordChar := by
  obtain rfl | ⟨ds, hds, rfl⟩ := h
  · rfl
  · rw [List.all_cons, hds.isWordChar]
    rfl

theorem IsExponent.isWordChar {cs : List Char} (h : IsExponent cs) : cs.all isWordChar := by
  obtain rfl | ⟨e, sign, ds, he, hsign, hds, rfl⟩ := h
  · rfl
  · have hmark : Options.isWordChar e := by rcases he with rfl | rfl <;> rfl
    have hsign : sign.all Options.isWordChar := by
      revert sign
      decide
    rw [List.all_cons, List.all_append, hmark, hsign, hds.isWordChar]
    rfl

theorem IsNumber.isWordChar {cs : List Char} (h : IsNumber cs) : cs.all isWordChar := by
  obtain ⟨sign, whole, fraction, exponent, hsign, hwhole, hfraction, hexponent, rfl⟩ := h
  have hsign : sign.all Options.isWordChar := by
    revert sign
    decide
  rw [List.all_append, List.all_append, List.all_append, hsign, hwhole.1.isWordChar,
    hfraction.isWordChar, hexponent.isWordChar]
  rfl

theorem IsWord.isWordChar {cs : List Char} (h : IsWord cs) : cs.all isWordChar := by
  obtain rfl | rfl | rfl | h := h
  · rfl
  · rfl
  · rfl
  · exact h.isWordChar

theorem IsWord.ne_nil {cs : List Char} (h : IsWord cs) : cs ≠ [] := by
  obtain rfl | rfl | rfl | ⟨sign, whole, fraction, exponent, -, hwhole, -, -, rfl⟩ := h
  · exact List.cons_ne_nil _ _
  · exact List.cons_ne_nil _ _
  · exact List.cons_ne_nil _ _
  · simp [hwhole.1.1]

end Words

section Strings

def isHexDigit (c : Char) : Bool := c.isDigit || ('a' ≤ c && c ≤ 'f') || ('A' ≤ c && c ≤ 'F')

/-- What may stand between the quotes of a string. -/
inductive IsStringBody : List Char → Prop where
  | nil : IsStringBody []
  | plain {c : Char} {cs : List Char} : 0x20 ≤ c.toNat → c ≠ '"' → c ≠ '\\' → IsStringBody cs →
      IsStringBody (c :: cs)
  | escape {c : Char} {cs : List Char} : c ∈ ['"', '\\', '/', 'b', 'f', 'n', 'r', 't'] →
      IsStringBody cs → IsStringBody ('\\' :: c :: cs)
  | unicode {a b c d : Char} {cs : List Char} : isHexDigit a → isHexDigit b → isHexDigit c →
      isHexDigit d → IsStringBody cs → IsStringBody ('\\' :: 'u' :: a :: b :: c :: d :: cs)

def IsString (cs : List Char) : Prop := ∃ body, IsStringBody body ∧ cs = '"' :: (body ++ ['"'])

end Strings

inductive Token where
  /-- A bracket, a colon or a comma. -/
  | mark (c : Char)
  | string (cs : List Char)
  | word (cs : List Char)
  deriving DecidableEq

def isOpening (c : Char) : Bool := c = '[' || c = '{'

def isClosing (c : Char) : Bool := c = '}' || c = ']'

def isMark (c : Char) : Bool := isOpening c || isClosing c || c = ':' || c = ','

/-- The white space of JSON. -/
def isGap (c : Char) : Bool := c = ' ' || c = '\t' || c = '\n' || c = '\r'

/-- What a piece by itself is: white space, a mark or a string; `extended` says whether comments may
stand where white space may. -/
inductive Piece.StandsFor (extended : Bool) : Piece → List Token → Prop where
  | gap {c : Char} : isGap c → StandsFor extended (.char c) []
  | comment {cs : List Char} : extended = true → StandsFor extended (.comment cs) []
  | mark {c : Char} : isMark c → StandsFor extended (.char c) [.mark c]
  | string {cs : List Char} : IsString cs → StandsFor extended (.literal cs) [.string cs]

/-- The tokens that a text in pieces spells. -/
inductive Spells (extended : Bool) : List Piece → List Token → Prop where
  | nil : Spells extended [] []
  | piece {p : Piece} {ps : List Piece} {ts us : List Token} : p.StandsFor extended us →
      Spells extended ps ts → Spells extended (p :: ps) (us ++ ts)
  | word {cs : List Char} {ps : List Piece} {ts : List Token} : IsWord cs → Spells extended ps ts →
      Spells extended (cs.map .char ++ ps) (.word cs :: ts)

/-- What a text denotes. Strings, numbers and constants stand as they are written. -/
inductive Document where
  | word (cs : List Char)
  | string (cs : List Char)
  | array (elements : List Document)
  | object (members : List (List Char × Document))

/-- An element of an array or a member of an object. -/
inductive Item where
  | element (d : Document)
  | member (m : List Char × Document)

mutual

/-- The tokens that write a document; `extended` says whether a comma may follow the last item of an
array or an object. -/
inductive Writes (extended : Bool) : Document → List Token → Prop where
  | word (cs : List Char) : Writes extended (.word cs) [.word cs]
  | string (cs : List Char) : Writes extended (.string cs) [.string cs]
  | array {ds : List Document} {ts : List Token} : WritesItems extended (ds.map .element) ts →
      Writes extended (.array ds) (.mark '[' :: (ts ++ [.mark ']']))
  | object {ms : List (List Char × Document)} {ts : List Token} :
      WritesItems extended (ms.map .member) ts →
      Writes extended (.object ms) (.mark '{' :: (ts ++ [.mark '}']))

inductive WritesItem (extended : Bool) : Item → List Token → Prop where
  | element {d : Document} {ts : List Token} : Writes extended d ts →
      WritesItem extended (.element d) ts
  | member {key : List Char} {d : Document} {ts : List Token} : Writes extended d ts →
      WritesItem extended (.member (key, d)) (.string key :: .mark ':' :: ts)

inductive WritesItems (extended : Bool) : List Item → List Token → Prop where
  | nil : WritesItems extended [] []
  | last {i : Item} {ts : List Token} : WritesItem extended i ts → WritesItems extended [i] ts
  | trailing {i : Item} {ts : List Token} : extended = true → WritesItem extended i ts →
      WritesItems extended [i] (ts ++ [.mark ','])
  | cons {i j : Item} {is : List Item} {ts us : List Token} : WritesItem extended i ts →
      WritesItems extended (j :: is) us →
      WritesItems extended (i :: j :: is) (ts ++ .mark ',' :: us)

end

/-- The documents that a text denotes. -/
def Denotes (extended : Bool) (cs : List Char) (d : Document) : Prop :=
  ∃ ts, Spells extended (pieces cs) ts ∧ Writes extended d ts

/-- The text is JSON for the document. -/
def IsJson : List Char → Document → Prop := Denotes false

/-- The text is JSON with comments and trailing commas for the document. -/
def IsExtendedJson : List Char → Document → Prop := Denotes true

end ScriptToLua.Options
