import Zabbix.Lib.Ascii

/-!
# JsonText

The grammar of JSON texts, over bytes: white space, strings,
numbers, values.  Bytes from 0x80 on stand in strings as characters do; which
characters they encode is not part of the grammar.
-/

namespace JsonText

open Ascii

/-! ## tokens -/

/-- White space. -/
def Ws (s : List UInt8) : Prop := ∀ c ∈ s, c = space ∨ c = tab ∨ c = newline ∨ c = cr

def isDigit (c : UInt8) : Bool := 48 ≤ c ∧ c ≤ 57

def isHexDigit (c : UInt8) : Bool := isDigit c ∨ (65 ≤ c ∧ c ≤ 70) ∨ (97 ≤ c ∧ c ≤ 102)

/-- The letters that may follow a backslash, besides `u`. -/
def isEscapeLetter (c : UInt8) : Bool :=
  c = dquote ∨ c = backslash ∨ c = slash ∨ c = 98 ∨ c = 102 ∨ c = 110 ∨ c = 114 ∨ c = 116

/-- The characters of a string. -/
inductive Chars : List UInt8 → Prop
  | nil : Chars []
  | unescaped {c : UInt8} {s : List UInt8} (hc : 32 ≤ c ∧ c ≠ dquote ∧ c ≠ backslash) (hs : Chars s) :
      Chars (c :: s)
  | escape {c : UInt8} {s : List UInt8} (hc : isEscapeLetter c = true) (hs : Chars s) :
      Chars (backslash :: c :: s)
  | unicode {a b c d : UInt8} {s : List UInt8}
      (h : isHexDigit a = true ∧ isHexDigit b = true ∧ isHexDigit c = true ∧ isHexDigit d = true)
      (hs : Chars s) : Chars (backslash :: 117 :: a :: b :: c :: d :: s)

/-- A string, in its quotes. -/
def Str (s : List UInt8) : Prop := ∃ chars, Chars chars ∧ s = dquote :: (chars ++ [dquote])

/-- A natural number, without leading zeros. -/
def isNat : List UInt8 → Bool
  | [] => false
  | c :: s => (c = 48 && s.isEmpty) || (49 ≤ c && c ≤ 57 && s.all isDigit)

/-- An integer. -/
def isInt : List UInt8 → Bool
  | [] => false
  | c :: s => if c = minus then isNat s else isNat (c :: s)

/-- A fraction or nothing. -/
def Frac (s : List UInt8) : Prop := s = [] ∨ ∃ ds, ds ≠ [] ∧ ds.all isDigit ∧ s = dot :: ds

/-- An exponent or nothing. -/
def Exp (s : List UInt8) : Prop :=
  s = [] ∨ ∃ e sign ds, (e = 101 ∨ e = 69) ∧ (sign = [] ∨ sign = [plus] ∨ sign = [minus]) ∧
    ds ≠ [] ∧ ds.all isDigit ∧ s = e :: (sign ++ ds)

/-- A number. -/
def Number (s : List UInt8) : Prop :=
  ∃ int frac exp, isInt int ∧ Frac frac ∧ Exp exp ∧ s = int ++ frac ++ exp

theorem number_of_isInt {s : List UInt8} (h : isInt s = true) : Number s :=
  ⟨s, [], [], h, .inl rfl, .inl rfl, by simp⟩

/-! ## values -/

mutual

/-- A value. -/
inductive Value : List UInt8 → Prop
  | null : Value (bytes "null")
  | true : Value (bytes "true")
  | false : Value (bytes "false")
  | number {s : List UInt8} (h : Number s) : Value s
  | string {s : List UInt8} (h : Str s) : Value s
  | emptyArray {ws : List UInt8} (h : Ws ws) : Value (lbracket :: (ws ++ [rbracket]))
  | array {s : List UInt8} (h : Elements s) : Value (lbracket :: (s ++ [rbracket]))
  | emptyObject {ws : List UInt8} (h : Ws ws) : Value (lbrace :: (ws ++ [rbrace]))
  | object {s : List UInt8} (h : Pairs s) : Value (lbrace :: (s ++ [rbrace]))

/-- The elements of an array. -/
inductive Elements : List UInt8 → Prop
  | last {a v b : List UInt8} (ha : Ws a) (hv : Value v) (hb : Ws b) : Elements (a ++ v ++ b)
  | cons {a v b s : List UInt8} (ha : Ws a) (hv : Value v) (hb : Ws b) (hs : Elements s) :
      Elements (a ++ v ++ b ++ comma :: s)

/-- The pairs of an object. -/
inductive Pairs : List UInt8 → Prop
  | last {a n b c v d : List UInt8} (ha : Ws a) (hn : Str n) (hb : Ws b) (hc : Ws c) (hv : Value v)
      (hd : Ws d) : Pairs (a ++ n ++ b ++ colon :: (c ++ v ++ d))
  | cons {a n b c v d s : List UInt8} (ha : Ws a) (hn : Str n) (hb : Ws b) (hc : Ws c) (hv : Value v)
      (hd : Ws d) (hs : Pairs s) : Pairs (a ++ n ++ b ++ colon :: (c ++ v ++ d) ++ comma :: s)

end

/-- A JSON text is an object or an array, between white space. -/
def Text (s : List UInt8) : Prop :=
  ∃ a v b, Ws a ∧ Value v ∧ Ws b ∧ (v.head? = some lbrace ∨ v.head? = some lbracket) ∧ s = a ++ v ++ b

theorem ws_nil : Ws [] := fun _ h => nomatch h

/-- Characters one after the other. -/
theorem Chars.append {s t : List UInt8} (hs : Chars s) (ht : Chars t) : Chars (s ++ t) := by
  induction hs with
  | nil => exact ht
  | unescaped hc _ ih => exact .unescaped hc ih
  | escape hc _ ih => exact .escape hc ih
  | unicode h _ ih => exact .unicode h ih

end JsonText
