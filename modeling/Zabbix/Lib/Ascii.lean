/-!
# Ascii

Texts as byte lists, and names for the bytes that the scanners of this
development treat specially.
-/

/-- The bytes of an ASCII text. -/
def bytes (s : String) : List UInt8 := s.toUTF8.data.toList

/-- A text without NUL is checked by evaluation. -/
theorem nul_not_mem_bytes (s : String) (h : decide ((0 : UInt8) ∉ bytes s) = true) : (0 : UInt8) ∉ bytes s :=
  of_decide_eq_true h

/-- What is said of the bytes of a list is decided byte by byte. -/
instance (priority := high) decidableForallBytes (s : List UInt8) (p : UInt8 → Prop) [DecidablePred p] :
    Decidable (∀ c ∈ s, p c) := List.decidableBAll p s

namespace Ascii

abbrev nul : UInt8 := 0
abbrev backspace : UInt8 := 8
abbrev tab : UInt8 := 9
abbrev newline : UInt8 := 10
abbrev formfeed : UInt8 := 12
abbrev cr : UInt8 := 13
abbrev space : UInt8 := 32
abbrev dquote : UInt8 := 34
abbrev hash : UInt8 := 35
abbrev ampersand : UInt8 := 38
abbrev squote : UInt8 := 39
abbrev lparen : UInt8 := 40
abbrev rparen : UInt8 := 41
abbrev star : UInt8 := 42
abbrev plus : UInt8 := 43
abbrev comma : UInt8 := 44
abbrev minus : UInt8 := 45
abbrev dot : UInt8 := 46
abbrev slash : UInt8 := 47
abbrev colon : UInt8 := 58
abbrev semicolon : UInt8 := 59
abbrev less : UInt8 := 60
abbrev equals : UInt8 := 61
abbrev greater : UInt8 := 62
abbrev capitalG : UInt8 := 71
abbrev capitalK : UInt8 := 75
abbrev capitalM : UInt8 := 77
abbrev capitalN : UInt8 := 78
abbrev lbracket : UInt8 := 91
abbrev backslash : UInt8 := 92
abbrev rbracket : UInt8 := 93
abbrev lbrace : UInt8 := 123
abbrev bar : UInt8 := 124
abbrev rbrace : UInt8 := 125

/-- A property of bytes holds when it holds of the 256 of them. -/
theorem forall_byte {p : UInt8 → Prop} (h : ∀ n : Fin 256, p (UInt8.ofNat n.val)) (c : UInt8) : p c := by
  have hc := h ⟨c.toNat, c.toNat_lt⟩
  rwa [UInt8.ofNat_toNat] at hc

end Ascii
