import Mathlib.Algebra.Group.Int.Defs
import Mathlib.Algebra.Group.Nat.Defs
import Mathlib.Data.List.Basic
import Mathlib.Tactic.Common

/-!
# Unicode in Long Names

The characters of a long name are stored as Unicode, in Intel byte order, in
fields of five, six and two characters. `ibm2unic` fills one field and
`unic2ibm` reads one back. A name that ends inside a field is followed there by
a zero, and what lies behind it stays filled with `0xff`.

The character set is not a subset of Unicode that is mapped one to one: a few
control characters are written as letters. `SelfMapped` are the characters that
come back as themselves.

## Main definitions

* `ibm2unic`: Characters to Unicode.

## Theorems

* `unic2ibm_ff`: A field that was not written to is empty.
-/

namespace MagiC

namespace Vfat

/-- `map_ascii_Unicode`: the Unicode of each character. -/
def mapAsciiUnicode : List Nat :=
  [
    0x0000, 0x25b2, 0x25bc, 0x25ba, 0x25c4, 0x2022, 0x00d7, 0x221e, 0x00a4, 0x0074, 0x266b,
    0x266a, 0x2191, 0x2193, 0x2192, 0x2190, 0x0030, 0x0031, 0x0032, 0x0033, 0x0034, 0x0035,
    0x0036, 0x0037, 0x0038, 0x0039, 0x0065, 0x0045, 0x003f, 0x003f, 0x003f, 0x25cf, 0x0020,
    0x0021, 0x0022, 0x0023, 0x0024, 0x0025, 0x0026, 0x0027, 0x0028, 0x0029, 0x002a, 0x002b,
    0x002c, 0x002d, 0x002e, 0x002f, 0x0030, 0x0031, 0x0032, 0x0033, 0x0034, 0x0035, 0x0036,
    0x0037, 0x0038, 0x0039, 0x003a, 0x003b, 0x003c, 0x003d, 0x003e, 0x003f, 0x0040, 0x0041,
    0x0042, 0x0043, 0x0044, 0x0045, 0x0046, 0x0047, 0x0048, 0x0049, 0x004a, 0x004b, 0x004c,
    0x004d, 0x004e, 0x004f, 0x0050, 0x0051, 0x0052, 0x0053, 0x0054, 0x0055, 0x0056, 0x0057,
    0x0058, 0x0059, 0x005a, 0x005b, 0x005c, 0x005d, 0x005e, 0x005f, 0x0060, 0x0061, 0x0062,
    0x0063, 0x0064, 0x0065, 0x0066, 0x0067, 0x0068, 0x0069, 0x006a, 0x006b, 0x006c, 0x006d,
    0x006e, 0x006f, 0x0070, 0x0071, 0x0072, 0x0073, 0x0074, 0x0075, 0x0076, 0x0077, 0x0078,
    0x0079, 0x007a, 0x007b, 0x007c, 0x007d, 0x007e, 0x2206, 0x00c7, 0x00fc, 0x00e9, 0x00e2,
    0x00e4, 0x00e0, 0x00e5, 0x00e7, 0x00ea, 0x00eb, 0x00e8, 0x00ef, 0x00ee, 0x00ec, 0x00c4,
    0x00c5, 0x00c9, 0x00e6, 0x00c6, 0x00f4, 0x00f6, 0x00f2, 0x00fb, 0x00f9, 0x00ff, 0x00d6,
    0x00dc, 0x00a2, 0x00a3, 0x00a5, 0x00df, 0x0192, 0x00e1, 0x00ed, 0x00f3, 0x00fa, 0x00f1,
    0x00d1, 0x00aa, 0x00ba, 0x00bf, 0x2310, 0x00ac, 0x00bd, 0x00bc, 0x00a1, 0x00ab, 0x00bb,
    0x00e3, 0x00f5, 0x00d8, 0x00f8, 0x0153, 0x0152, 0x00c0, 0x00c3, 0x00d5, 0x00a8, 0x00b4,
    0x2020, 0x00b6, 0x00a9, 0x00ae, 0x2122, 0x00c2, 0x00c1, 0x00ca, 0x00cb, 0x00c8, 0x00ce,
    0x00cf, 0x00cc, 0x00cd, 0x00d4, 0x00d2, 0x00d3, 0x00db, 0x00d9, 0x00da, 0x201e, 0x201c,
    0x201d, 0x201a, 0x2018, 0x2039, 0x203a, 0x2013, 0x2014, 0x2019, 0x2191, 0x2193, 0x2192,
    0x2190, 0x00a7, 0x2030, 0x221e, 0x03b1, 0x03b2, 0x0393, 0x03c0, 0x2211, 0x03c3, 0x00b5,
    0x03c4, 0x03a6, 0x0398, 0x2126, 0x03b4, 0x222b, 0x03c6, 0x2208, 0x220f, 0x2261, 0x00b1,
    0x2265, 0x2264, 0x2320, 0x2321, 0x00f7, 0x2248, 0x00b0, 0x2022, 0x00b7, 0x221a, 0x207f,
    0x00b2, 0x00b3, 0x00af]

/-- `map_Unicode_ascii`: codes and their characters in turn, ascending. -/
def mapUnicodeAscii : List Nat :=
  [
    0x00a1, 173, 0x00a2, 155, 0x00a3, 156, 0x00a5, 157, 0x00a7, 221, 0x00a8, 185, 0x00a9, 189,
    0x00aa, 166, 0x00ab, 174, 0x00ac, 170, 0x00ae, 190, 0x00af, 255, 0x00b0, 248, 0x00b1, 241,
    0x00b2, 253, 0x00b3, 254, 0x00b4, 186, 0x00b5, 230, 0x00b6, 188, 0x00b7, 250, 0x00ba, 167,
    0x00bb, 175, 0x00bc, 172, 0x00bd, 171, 0x00bf, 168, 0x00c0, 182, 0x00c1, 193, 0x00c2, 192,
    0x00c3, 183, 0x00c4, 142, 0x00c5, 143, 0x00c6, 146, 0x00c7, 128, 0x00c8, 196, 0x00c9, 144,
    0x00ca, 194, 0x00cb, 195, 0x00cc, 199, 0x00cd, 200, 0x00ce, 197, 0x00cf, 198, 0x00d1, 165,
    0x00d2, 202, 0x00d3, 203, 0x00d4, 201, 0x00d5, 184, 0x00d6, 153, 0x00d8, 178, 0x00d9, 205,
    0x00da, 206, 0x00db, 204, 0x00dc, 154, 0x00df, 158, 0x00e0, 133, 0x00e1, 160, 0x00e2, 131,
    0x00e3, 176, 0x00e4, 132, 0x00e5, 134, 0x00e6, 145, 0x00e7, 135, 0x00e8, 138, 0x00e9, 130,
    0x00ea, 136, 0x00eb, 137, 0x00ec, 141, 0x00ed, 161, 0x00ee, 140, 0x00ef, 139, 0x00f1, 164,
    0x00f2, 149, 0x00f3, 162, 0x00f4, 147, 0x00f5, 177, 0x00f6, 148, 0x00f7, 246, 0x00f8, 179,
    0x00f9, 151, 0x00fa, 163, 0x00fb, 150, 0x00fc, 129, 0x00ff, 152, 0x0152, 181, 0x0153, 180,
    0x0192, 159, 0x0393, 226, 0x0398, 233, 0x03a6, 232, 0x03b1, 224, 0x03b2, 225, 0x03b4, 235,
    0x03c0, 227, 0x03c3, 229, 0x03c4, 231, 0x03c6, 237, 0x2013, 214, 0x2014, 215, 0x2018, 211,
    0x2019, 216, 0x201a, 210, 0x201c, 208, 0x201d, 209, 0x201e, 207, 0x2020, 187, 0x2022, 249,
    0x2030, 222, 0x2039, 212, 0x203a, 213, 0x207f, 252, 0x2122, 191, 0x2126, 234, 0x2190, 220,
    0x2191, 217, 0x2192, 219, 0x2193, 218, 0x2206, 127, 0x2208, 238, 0x220f, 239, 0x2211, 228,
    0x221a, 251, 0x221e, 223, 0x222b, 236, 0x2248, 247, 0x2261, 240, 0x2264, 243, 0x2265, 242,
    0x2310, 169, 0x2320, 244, 0x2321, 245]

/-- The binary search in a table of codes and characters, `0xbc` for a code that
    is not in it. The numbers are indices of words. -/
def unicSearch (tab : List Nat) (wchar low high nitems : Nat) : UInt8 :=
  let test := low + (nitems >>> 1 &&& 0xfffe)
  let code := tab.getD test 0
  if wchar = code then UInt8.ofNat (tab.getD (test + 1) 0)
  else
    let low' := if wchar < code then low else test
    let high' := if wchar < code then test else high
    let nnitems := high' - low' + 2
    if _ : low' ≠ high' ∧ nnitems < nitems then unicSearch tab wchar low' high' nnitems else 0xbc
termination_by nitems
decreasing_by
  rename_i h
  exact h.2

/-- One character of `unic2ibm`, or nothing at the end of the text. -/
def unicChar (wchar : Nat) : Option UInt8 :=
  if 0x20 ≤ wchar ∧ wchar < 0x7f then some (UInt8.ofNat wchar)
  else if wchar = 0 ∨ wchar = 0xffff then none
  else
    let nnitems := mapUnicodeAscii.length
    some (unicSearch mapUnicodeAscii wchar 0 (nnitems - 2) nnitems)

/-- `unic2ibm`: the characters of a field, up to its end mark. -/
def unic2ibm : List UInt8 → List UInt8
  | lo :: hi :: unicode =>
    match unicChar (lo.toNat + hi.toNat * 2 ^ 8) with
    | none => []
    | some c => c :: unic2ibm unicode
  | _ => []

/-- `ibm2unic`: write at most `len` characters of the string `s` and its end mark
    over a field. Yields what is left of the string, and the field. -/
def ibm2unic (s unicode : List UInt8) : Nat → List UInt8 × List UInt8
  | 0 => (s, unicode)
  | len + 1 =>
    let c := s.headD 0
    let w := mapAsciiUnicode.getD c.toNat 0
    let r := if 0 < len ∧ c ≠ 0 then ibm2unic s.tail (unicode.drop 2) len
      else (s.tail, unicode.drop 2)
    (r.1, UInt8.ofNat (w % 2 ^ 8) :: UInt8.ofNat (w / 2 ^ 8) :: r.2)

/-- A character that `ibm2unic` followed by `unic2ibm` maps to itself. -/
def SelfMapped (c : UInt8) : Prop := unic2ibm (ibm2unic [c] [0xff, 0xff] 1).2 = [c]

instance (c : UInt8) : Decidable (SelfMapped c) :=
  inferInstanceAs (Decidable (_ = _))

theorem unicChar_ende (wchar : Nat) (h : wchar = 0 ∨ wchar = 0xffff) : unicChar wchar = none := by
  unfold unicChar
  rw [if_neg (by omega), if_pos h]

theorem unic2ibm_eos (unicode : List UInt8) :
    unic2ibm (UInt8.ofNat (mapAsciiUnicode.getD (0 : UInt8).toNat 0 % 2 ^ 8) ::
      UInt8.ofNat (mapAsciiUnicode.getD (0 : UInt8).toNat 0 / 2 ^ 8) :: unicode) = [] := by
  have hzero : mapAsciiUnicode.getD (0 : UInt8).toNat 0 = 0 := rfl
  rw [hzero, unic2ibm, unicChar_ende _ (Or.inl (by decide))]

theorem unicChar_selfMapped (c : UInt8) (hc : SelfMapped c) :
    unicChar ((UInt8.ofNat (mapAsciiUnicode.getD c.toNat 0 % 2 ^ 8)).toNat
      + (UInt8.ofNat (mapAsciiUnicode.getD c.toNat 0 / 2 ^ 8)).toNat * 2 ^ 8) = some c := by
  unfold SelfMapped at hc
  simp only [ibm2unic, List.headD_cons, Nat.lt_irrefl, false_and, if_false, unic2ibm] at hc
  cases hu : unicChar ((UInt8.ofNat (mapAsciiUnicode.getD c.toNat 0 % 2 ^ 8)).toNat
      + (UInt8.ofNat (mapAsciiUnicode.getD c.toNat 0 / 2 ^ 8)).toNat * 2 ^ 8) with
  | none =>
    rw [hu] at hc
    simp only [reduceCtorEq] at hc
  | some d =>
    rw [hu] at hc
    simp only [List.cons.injEq] at hc
    rw [hc.1]

theorem selfMapped_ne_zero (c : UInt8) (hc : SelfMapped c) : c ≠ 0 := by
  rintro rfl
  exact absurd hc (by decide)

theorem unic2ibm_selfMapped (c : UInt8) (hc : SelfMapped c) (unicode : List UInt8) :
    unic2ibm (UInt8.ofNat (mapAsciiUnicode.getD c.toNat 0 % 2 ^ 8) ::
      UInt8.ofNat (mapAsciiUnicode.getD c.toNat 0 / 2 ^ 8) :: unicode) = c :: unic2ibm unicode := by
  rw [unic2ibm, unicChar_selfMapped c hc]

theorem ibm2unic_length (s unicode : List UInt8) (len : Nat) (hlen : unicode.length = 2 * len) :
    (ibm2unic s unicode len).2.length = 2 * len := by
  induction len generalizing s unicode with
  | zero => exact hlen
  | succ len ih =>
    have hdrop : (unicode.drop 2).length = 2 * len := by
      rw [List.length_drop]
      omega
    simp only [ibm2unic, List.length_cons]
    by_cases hmore : 0 < len ∧ s.headD 0 ≠ 0
    · rw [if_pos hmore, ih s.tail _ hdrop]
      omega
    · rw [if_neg hmore, hdrop]
      omega

/-- A field takes its number of characters from the name. -/
theorem ibm2unic_fst (s unicode : List UInt8) (len : Nat) (hs : ∀ c ∈ s, c ≠ 0) :
    (ibm2unic s unicode (len + 1)).1 = s.drop (len + 1) := by
  induction len generalizing s unicode with
  | zero => simp only [ibm2unic, Nat.lt_irrefl, false_and, if_false, Nat.zero_add, List.drop_one]
  | succ len ih =>
    rw [ibm2unic]
    cases s with
    | nil => simp only [List.headD_nil, ne_eq, not_true_eq_false, and_false, if_false,
        List.tail_nil, List.drop_nil]
    | cons c s =>
      have hc : c ≠ 0 := hs c List.mem_cons_self
      simp only [List.headD_cons, Nat.succ_pos, hc, ne_eq, not_false_eq_true, and_self,
        if_true, List.tail_cons, List.drop_succ_cons]
      exact ih s _ fun d hd => hs d (List.mem_cons_of_mem _ hd)

/-- A field yields the characters that were written to it: it is full, or it holds
    the rest of the name and an end mark. -/
theorem unic2ibm_ibm2unic (s unicode : List UInt8) (len : Nat) (hs : ∀ c ∈ s, SelfMapped c)
    (hlen : unicode.length = 2 * (len + 1)) :
    unic2ibm (ibm2unic s unicode (len + 1)).2 = s.take (len + 1) := by
  induction len generalizing s unicode with
  | zero =>
    have hnil : unicode.drop 2 = [] := List.drop_eq_nil_of_le (by omega)
    simp only [ibm2unic, Nat.lt_irrefl, false_and, if_false, hnil]
    cases s with
    | nil => exact unic2ibm_eos []
    | cons c s =>
      simp only [List.headD_cons]
      rw [unic2ibm_selfMapped c (hs c List.mem_cons_self)]
      rfl
  | succ len ih =>
    have hdrop : (unicode.drop 2).length = 2 * (len + 1) := by
      rw [List.length_drop]
      omega
    rw [ibm2unic]
    cases s with
    | nil =>
      simp only [List.headD_nil, ne_eq, not_true_eq_false, and_false, if_false, List.take_nil]
      exact unic2ibm_eos _
    | cons c s =>
      have hc := hs c List.mem_cons_self
      simp only [List.headD_cons, Nat.succ_pos, selfMapped_ne_zero c hc, ne_eq,
        not_false_eq_true, and_self, if_true, List.tail_cons]
      rw [unic2ibm_selfMapped c hc, ih s _ (fun d hd => hs d (List.mem_cons_of_mem _ hd)) hdrop]
      rfl

theorem unic2ibm_ff (n : Nat) : unic2ibm (List.replicate n 0xff) = [] := by
  cases n with
  | zero => rfl
  | succ n =>
    cases n with
    | zero => rfl
    | succ n =>
      rw [List.replicate_succ, List.replicate_succ, unic2ibm, unicChar_ende _ (Or.inr (by decide))]

end Vfat

end MagiC
