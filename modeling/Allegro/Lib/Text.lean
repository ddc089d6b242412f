import Mathlib.Data.List.Basic

/-!
# Numbers and lists in text

The conversions of Rust's standard library that a command line goes through:
decimal numbers with an upper bound, `split` and `trim`; and the `Debug` form of a
string in an error text.
-/

namespace Text

/-- `Display` of an unsigned integer. -/
def decimal (n : Nat) : String := n.repr

/-- `FromStr` of an unsigned integer up to `max`: digits, after an optional plus sign. -/
def parseUnsigned (max : Nat) (s : String) : Option Nat :=
  let digits := match s.toList with
    | '+' :: digits => digits
    | digits => digits
  if digits ≠ [] ∧ digits.all Char.isDigit ∧ Nat.ofDigitChars 10 digits 0 ≤ max then
    some (Nat.ofDigitChars 10 digits 0)
  else none

/-- A printed number is read back exactly if it is in range. -/
theorem parseUnsigned_decimal (max n : Nat) :
    parseUnsigned max (decimal n) = if n ≤ max then some n else none := by
  have hdigit : ∀ c ∈ Nat.toDigits 10 n, c.isDigit = true := fun c hc =>
    Nat.isDigit_of_mem_toDigits (by decide) (by decide) hc
  have hstrip : (match Nat.toDigits 10 n with
      | '+' :: digits => digits
      | digits => digits) = Nat.toDigits 10 n := by
    split
    · next heq =>
      have hplus := hdigit '+' (by rw [heq]; exact List.mem_cons_self)
      exact absurd hplus (by decide)
    · rfl
  unfold parseUnsigned decimal
  rw [Nat.toList_repr]
  simp only
  rw [hstrip, Nat.ofDigitChars_ten_toDigits]
  by_cases hn : n ≤ max
  · rw [if_pos ⟨Nat.toDigits_ne_nil, List.all_eq_true.mpr hdigit, hn⟩, if_pos hn]
  · rw [if_neg (fun h => hn h.2.2), if_neg hn]

/-- The characters `str::trim` removes: Unicode `White_Space`. -/
def isWhitespace (c : Char) : Bool :=
  (0x9 ≤ c.toNat && c.toNat ≤ 0xD) || c.toNat == 0x20 || c.toNat == 0x85 || c.toNat == 0xA0 ||
    c.toNat == 0x1680 || (0x2000 ≤ c.toNat && c.toNat ≤ 0x200A) || c.toNat == 0x2028 ||
    c.toNat == 0x2029 || c.toNat == 0x202F || c.toNat == 0x205F || c.toNat == 0x3000

/-- `str::trim`. -/
def trim (s : String) : String :=
  String.ofList (((s.toList.dropWhile isWhitespace).reverse.dropWhile isWhitespace).reverse)

/-- `str::split` on a character. -/
def split (sep : Char) (s : String) : List String := (s.toList.splitOn sep).map String.ofList

/-- What `Debug` of a string shows for a character. `printable` stands for the Unicode
tables beyond ASCII: the characters that are shown as they are. -/
def escapeDebug (printable : Char → Bool) (c : Char) : String :=
  match c.toNat with
  | 0 => "\\0"
  | 9 => "\\t"
  | 10 => "\\n"
  | 13 => "\\r"
  | 34 => "\\\""
  | 92 => "\\\\"
  | code =>
    if (if code < 128 then 32 ≤ code && code ≠ 127 else printable c) then c.toString
    else "\\u\x7b" ++ String.ofList (Nat.toDigits 16 code) ++ "\x7d"

/-- `Debug` of a string. -/
def debug (printable : Char → Bool) (s : String) : String :=
  "\"" ++ String.join (s.toList.map (escapeDebug printable)) ++ "\""

end Text
