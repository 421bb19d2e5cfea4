import Mathlib.Data.List.Basic

namespace RuleLogic.Utf8

inductive Encodes : Nat → List UInt8 → Prop
  | one {a : Nat} (ha : a < 128) : Encodes a [.ofNat a]
  | two {a b : Nat} (ha : a < 32) (hb : b < 64) (h : 128 ≤ 64 * a + b) :
    Encodes (64 * a + b) [.ofNat (a + 192), .ofNat (b + 128)]
  | three {a b c : Nat} (ha : a < 16) (hb : b < 64) (hc : c < 64)
    (h : 2048 ≤ 64 * (64 * a + b) + c) :
    Encodes (64 * (64 * a + b) + c) [.ofNat (a + 224), .ofNat (b + 128), .ofNat (c + 128)]
  | four {a b c d : Nat} (ha : a < 8) (hb : b < 64) (hc : c < 64) (hd : d < 64)
    (h : 65536 ≤ 64 * (64 * (64 * a + b) + c) + d) :
    Encodes (64 * (64 * (64 * a + b) + c) + d)
      [.ofNat (a + 240), .ofNat (b + 128), .ofNat (c + 128), .ofNat (d + 128)]

theorem toNat_lt (c : Char) : c.toNat < 0x200000 := by
  have hvalid := c.valid
  unfold UInt32.isValidChar Nat.isValidChar at hvalid
  unfold Char.toNat
  omega

theorem encodes_utf8EncodeChar (c : Char) : Encodes c.toNat (String.utf8EncodeChar c) := by
  have hmax := toNat_lt c
  have hbytes : String.utf8EncodeChar c =
      if c.toNat ≤ 127 then [.ofNat c.toNat]
      else if c.toNat ≤ 2047 then
        [.ofNat (c.toNat / 64 % 32 + 192), .ofNat (c.toNat % 64 + 128)]
      else if c.toNat ≤ 65535 then
        [.ofNat (c.toNat / 4096 % 16 + 224), .ofNat (c.toNat / 64 % 64 + 128),
          .ofNat (c.toNat % 64 + 128)]
      else
        [.ofNat (c.toNat / 262144 % 8 + 240), .ofNat (c.toNat / 4096 % 64 + 128),
          .ofNat (c.toNat / 64 % 64 + 128), .ofNat (c.toNat % 64 + 128)] := rfl
  rw [hbytes]
  generalize c.toNat = n at hmax
  by_cases hone : n ≤ 127
  · rw [if_pos hone]
    exact .one (by omega)
  by_cases htwo : n ≤ 2047
  · have hdigits : n = 64 * (n / 64 % 32) + n % 64 := by omega
    rw [if_neg hone, if_pos htwo]
    nth_rewrite 1 [hdigits]
    exact .two (by omega) (by omega) (by omega)
  by_cases hthree : n ≤ 65535
  · have hdigits : n = 64 * (64 * (n / 4096 % 16) + n / 64 % 64) + n % 64 := by omega
    rw [if_neg hone, if_neg htwo, if_pos hthree]
    nth_rewrite 1 [hdigits]
    exact .three (by omega) (by omega) (by omega) (by omega)
  · have hdigits :
        n = 64 * (64 * (64 * (n / 262144 % 8) + n / 4096 % 64) + n / 64 % 64) + n % 64 := by
      omega
    rw [if_neg hone, if_neg htwo, if_neg hthree]
    nth_rewrite 1 [hdigits]
    exact .four (by omega) (by omega) (by omega) (by omega) (by omega)

theorem lt_of_encodes {m n : Nat} {bs cs : List UInt8} (hb : Encodes m bs) (hc : Encodes n cs)
    (h : m < n) (xs ys : List UInt8) : bs ++ xs < cs ++ ys := by
  -- The leading bytes differ in the right way unless there are equally many digits, and then the
  -- first digit that differs does.
  cases hb <;> cases hc <;>
    simp only [List.cons_append, List.cons_lt_cons_iff, UInt8.lt_iff_toNat_lt, ← UInt8.toNat_inj,
      UInt8.toNat_ofNat'] <;>
    omega

theorem flatMap_utf8EncodeChar_lt {cs ds : List Char} (h : cs < ds) :
    cs.flatMap String.utf8EncodeChar < ds.flatMap String.utf8EncodeChar := by
  induction cs generalizing ds with
  | nil =>
    cases ds with
    | nil => exact absurd h (List.not_lt_nil [])
    | cons d ds =>
      obtain ⟨b, bs, hbytes⟩ := List.exists_cons_of_ne_nil (String.utf8EncodeChar_ne_nil (c := d))
      rw [List.flatMap_nil, List.flatMap_cons, hbytes, List.cons_append]
      exact List.nil_lt_cons b _
  | cons c cs ih =>
    cases ds with
    | nil => exact absurd h (List.not_lt_nil (c :: cs))
    | cons d ds =>
      rw [List.flatMap_cons, List.flatMap_cons]
      rcases List.cons_lt_cons_iff.mp h with hlt | ⟨rfl, hrest⟩
      · exact lt_of_encodes (encodes_utf8EncodeChar c) (encodes_utf8EncodeChar d) hlt _ _
      · exact List.append_left_lt (ih hrest)

theorem toList_toUTF8 (s : String) :
    s.toUTF8.data.toList = s.toList.flatMap String.utf8EncodeChar := by
  have hbytes : s.toUTF8 = (s.toList.flatMap String.utf8EncodeChar).toByteArray :=
    String.utf8Encode_toList.symm
  rw [hbytes, List.data_toByteArray]

theorem toUTF8_lt_toUTF8 {s t : String} (h : s < t) :
    s.toUTF8.data.toList < t.toUTF8.data.toList := by
  rw [toList_toUTF8, toList_toUTF8]
  exact flatMap_utf8EncodeChar_lt (String.lt_iff.mp h)

end RuleLogic.Utf8
