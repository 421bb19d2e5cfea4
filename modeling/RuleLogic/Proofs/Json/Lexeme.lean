import Mathlib.Data.List.Basic
import RuleLogic.Json.Token

namespace RuleLogic.Json

namespace Quoted

theorem short?_of_letter? {c l : Char} (h : letter? c = some l) :
    l ≠ 'u' ∧ short? l = some c := by
  unfold letter? at h
  split at h
  case h_6 => cases h
  all_goals
    rename_i hc
    cases h
  · rw [Char.toNat_inj.mp (hc.trans (rfl : _ = Char.toNat '\x08'))]
    decide
  · rw [Char.toNat_inj.mp (hc.trans (rfl : _ = Char.toNat '\t'))]
    decide
  · rw [Char.toNat_inj.mp (hc.trans (rfl : _ = Char.toNat '\n'))]
    decide
  · rw [Char.toNat_inj.mp (hc.trans (rfl : _ = Char.toNat '\x0c'))]
    decide
  · rw [Char.toNat_inj.mp (hc.trans (rfl : _ = Char.toNat '\r'))]
    decide

theorem hexDigit?_digitChar : ∀ d < 16, hexDigit? (Nat.digitChar d) = some d := by
  decide

theorem unit?_control {n : Nat} (h : n < 32) (rest : List Char) :
    unit? ('0' :: '0' :: Nat.digitChar (n / 16) :: Nat.digitChar (n % 16) :: rest) =
      some (n, rest) := by
  have hzero : hexDigit? '0' = some 0 := rfl
  have hhigh := hexDigit?_digitChar (n / 16) (by omega)
  have hlow := hexDigit?_digitChar (n % 16) (by omega)
  have hvalue : ((0 * 16 + 0) * 16 + n / 16) * 16 + n % 16 = n := by omega
  simp only [unit?, hzero, hhigh, hlow, Option.bind_eq_bind, Option.bind_some, hvalue]

theorem codePoint?_control {c : Char} (h : c.toNat < 32) (rest : List Char) :
    codePoint?
        ('0' :: '0' :: Nat.digitChar (c.toNat / 16) :: Nat.digitChar (c.toNat % 16) :: rest) =
      some (c, rest) := by
  have hnotLow : isLow c.toNat = false := by
    rw [isLow, decide_eq_false_iff_not]
    omega
  have hnotHigh : isHigh c.toNat = false := by
    rw [isHigh, decide_eq_false_iff_not]
    omega
  simp only [codePoint?, unit?_control h, Option.bind_eq_bind, Option.bind_some, hnotLow, hnotHigh,
    Bool.false_eq_true, if_false, Char.ofNat_toNat]

theorem readBody_escaped (done rest : List Char) (c : Char) :
    readBody done (escaped c ++ rest) = readBody (c :: done) rest := by
  unfold escaped
  split
  · rename_i hc
    have hshort : c ≠ 'u' ∧ short? c = some c := by
      rcases hc with rfl | rfl
      · decide
      · decide
    rw [List.cons_append, readBody_cons, if_neg (by decide), if_pos rfl, List.singleton_append,
      unescape?, if_neg hshort.1, hshort.2]
    rfl
  · split
    · split
      · rename_i l hl
        obtain ⟨hne, hshort⟩ := short?_of_letter? hl
        rw [List.cons_append, readBody_cons, if_neg (by decide), if_pos rfl, List.singleton_append,
          unescape?, if_neg hne, hshort]
        rfl
      · rename_i hcontrol _ _
        have hpoint := codePoint?_control hcontrol rest
        rw [List.cons_append, readBody_cons, if_neg (by decide), if_pos rfl, List.cons_append,
          unescape?, if_pos rfl]
        simp only [List.cons_append, List.nil_append]
        rw [hpoint]
        rfl
    · rename_i hplain hcontrol
      obtain ⟨hquote, hslash⟩ := not_or.mp hplain
      rw [List.singleton_append, readBody_cons, if_neg hquote, if_neg hslash, if_neg hcontrol]

theorem readBody_flatMap_escaped (done s rest : List Char) :
    readBody done (s.flatMap escaped ++ '"' :: rest) = some (done.reverse ++ s, rest) := by
  induction s generalizing done with
  | nil => rw [List.flatMap_nil, List.nil_append, readBody_cons, if_pos rfl, List.append_nil]
  | cons c s ih =>
    rw [List.flatMap_cons, List.append_assoc, readBody_escaped, ih, List.reverse_cons,
      List.append_assoc, List.singleton_append]

end Quoted

namespace Numeral

open Decimal

def Delimits (rest : List Char) : Prop :=
  ∀ c ∈ rest.head?, c.isDigit = false ∧ c ≠ '.' ∧ c ≠ 'e' ∧ c ≠ 'E'

variable {rest : List Char}

theorem digits?_append {ds : List Char} (hds : ∀ d ∈ ds, d.isDigit = true) (hne : ds ≠ [])
    (hrest : Delimits rest) : digits? (ds ++ rest) = some (ds, rest) := by
  have hend : rest.takeWhile Char.isDigit = [] ∧ rest.dropWhile Char.isDigit = rest := by
    cases rest with
    | nil => exact ⟨rfl, rfl⟩
    | cons c rest =>
      obtain ⟨hdigit, _⟩ := hrest c rfl
      have hc : ¬c.isDigit = true := by simp [hdigit]
      exact ⟨List.takeWhile_cons_of_neg hc, List.dropWhile_cons_of_neg hc⟩
  have htake : (ds ++ rest).takeWhile Char.isDigit = ds := by
    rw [List.takeWhile_append_of_pos hds, hend.1, List.append_nil]
  have hdrop : (ds ++ rest).dropWhile Char.isDigit = rest := by
    rw [List.dropWhile_append_of_pos hds, hend.2]
  unfold digits?
  rw [htake, hdrop]
  split
  · exact absurd rfl hne
  · rfl

theorem isDigit_of_mem_toDigits {n : Nat} : ∀ d ∈ Nat.toDigits 10 n, d.isDigit = true :=
  fun _ hd => Nat.isDigit_of_mem_toDigits (by decide) (by decide) hd

theorem toDigits_eq_cons (n : Nat) :
    ∃ d ds, Nat.toDigits 10 n = d :: ds ∧ d.isDigit = true := by
  obtain ⟨d, ds, hdigits⟩ := List.exists_cons_of_ne_nil (Nat.toDigits_ne_nil (n := n) (b := 10))
  exact ⟨d, ds, hdigits, isDigit_of_mem_toDigits d (hdigits ▸ List.mem_cons_self)⟩

theorem head?_toDigits_ne_zero {n : Nat} (h : 0 < n) : (Nat.toDigits 10 n).head? ≠ some '0' := by
  induction n using Nat.strongRecOn with
  | ind n ih =>
    by_cases hn : n < 10
    · rw [Nat.toDigits_of_lt_base hn]
      intro hzero
      have hdigit : Nat.digitChar n = '0' := Option.some.inj hzero
      rw [Nat.digitChar_eq_zero] at hdigit
      omega
    · rw [Nat.toDigits_of_base_le (by decide) (by omega),
        List.head?_append_of_ne_nil _ Nat.toDigits_ne_nil]
      exact ih (n / 10) (by omega) (by omega)

theorem whole?_toDigits (n : Nat) (hrest : Delimits rest) :
    whole? (Nat.toDigits 10 n ++ rest) = some (Nat.toDigits 10 n, rest) := by
  unfold whole?
  rw [digits?_append isDigit_of_mem_toDigits Nat.toDigits_ne_nil hrest]
  split
  · rename_i d ds tail heq
    have hdigits : Nat.toDigits 10 n = '0' :: d :: ds := congrArg Prod.fst (Option.some.inj heq)
    rcases Nat.eq_zero_or_pos n with rfl | hpos
    · cases hdigits
    · have hhead := head?_toDigits_ne_zero hpos
      rw [hdigits] at hhead
      exact absurd rfl hhead
  · rfl

theorem fraction?_of_delimits (hrest : Delimits rest) : fraction? rest = some ([], rest) := by
  unfold fraction?
  split
  · exact absurd rfl (hrest '.' rfl).2.1
  · rfl

theorem exponent?_of_delimits (hrest : Delimits rest) : exponent? rest = some (none, rest) := by
  cases rest with
  | nil => rfl
  | cons c rest =>
    obtain ⟨_, _, hlower, hupper⟩ := hrest c rfl
    rw [exponent?, if_neg (not_or.mpr ⟨hlower, hupper⟩)]

theorem sign_integerText (i : Int) :
    sign (integerText i ++ rest) = (decide (i < 0), Nat.toDigits 10 i.natAbs ++ rest) := by
  unfold integerText
  by_cases hneg : i < 0
  · rw [if_pos hneg, decide_eq_true hneg]
    rfl
  · rw [if_neg hneg, decide_eq_false hneg]
    obtain ⟨d, ds, hdigits, hd⟩ := toDigits_eq_cons i.natAbs
    rw [hdigits]
    unfold sign
    split
    · rename_i heq
      cases heq
      cases hd
    · rfl

theorem scan?_integerText (i : Int) (hrest : Delimits rest) :
    scan? (integerText i ++ rest) =
      some (⟨decide (i < 0), Nat.toDigits 10 i.natAbs, [], none⟩, rest) := by
  rw [scan?, sign_integerText]
  simp only [whole?_toDigits _ hrest, fraction?_of_delimits hrest, exponent?_of_delimits hrest,
    Option.bind_eq_bind, Option.bind_some]

theorem int?_toInt (n : Int64) :
    int? ⟨decide (n.toInt < 0), Nat.toDigits 10 n.toInt.natAbs, [], none⟩ = some n := by
  have hmagnitude : Nat.ofDigitChars 10 (Nat.toDigits 10 n.toInt.natAbs) 0 = n.toInt.natAbs :=
    Nat.ofDigitChars_ten_toDigits
  have hvalue : (if decide (n.toInt < 0) = true then -(n.toInt.natAbs : Int) else n.toInt.natAbs) =
      n.toInt := by
    simp only [decide_eq_true_eq]
    omega
  have hzero : ¬(decide (n.toInt < 0) = true ∧ (n.toInt.natAbs : Int) = 0) := by
    simp only [decide_eq_true_eq]
    omega
  unfold int?
  simp only [hmagnitude, hvalue]
  rw [if_pos ⟨trivial, trivial, hzero, n.minValue_le_toInt, n.toInt_le⟩, Int64.ofInt_toInt]

end Numeral

namespace Token

variable {rest : List Char}

theorem number?_integerText (n : Int64) (hrest : Numeral.Delimits rest) :
    number? (Decimal.integerText n.toInt ++ rest) = some (.int n, rest) := by
  simp only [number?, Numeral.scan?_integerText _ hrest, ofNumeral?, Numeral.int?_toInt,
    Option.bind_eq_bind, Option.bind_some]

theorem string?_encode (s : String) :
    string? (s.toList.flatMap Quoted.escaped ++ '"' :: rest) = some (.str s, rest) := by
  rw [string?, Quoted.decode?, Quoted.readBody_flatMap_escaped, Option.map_some, List.reverse_nil,
    List.nil_append]
  simp only [String.ofList_toList]

theorem next?_of_punctuation {c : Char} {t : Token} (hc : punctuation? c = some t)
    (hblank : isBlank c = false) : next? (c :: rest) = some (t, rest) := by
  have hkeep : ¬isBlank c = true := by simp [hblank]
  rw [next?, List.dropWhile_cons_of_neg hkeep, scan?, hc]

theorem next?_of_number {c : Char} {cs : List Char} (hc : c = '-' ∨ c.isDigit = true) :
    next? (c :: cs) = number? (c :: cs) := by
  rcases hc with rfl | hdigit
  · rfl
  · have hblank : ¬isBlank c = true := by
      simp only [isBlank, Bool.or_eq_true, decide_eq_true_eq]
      rintro (((rfl | rfl) | rfl) | rfl) <;> cases hdigit
    have hpunctuation : punctuation? c = none := by
      unfold punctuation?
      split
      case h_7 => rfl
      all_goals cases hdigit
    have hquote : c ≠ '"' := by
      rintro rfl
      cases hdigit
    rw [next?, List.dropWhile_cons_of_neg hblank, scan?, hpunctuation]
    dsimp only
    rw [if_neg hquote, if_pos (.inr hdigit)]

theorem integerText_eq_cons (i : Int) :
    ∃ c cs, Decimal.integerText i = c :: cs ∧ (c = '-' ∨ c.isDigit = true) := by
  unfold Decimal.integerText
  split
  · exact ⟨'-', _, rfl, .inl rfl⟩
  · obtain ⟨d, ds, hdigits, hd⟩ := Numeral.toDigits_eq_cons i.natAbs
    exact ⟨d, ds, hdigits, .inr hd⟩

theorem next?_text {t : Token} (hfloat : ∀ x, t ≠ .float x)
    (hint : ∀ n, t = .int n → Numeral.Delimits rest) : next? (t.text ++ rest) = some (t, rest) := by
  cases t with
  | float x => exact absurd rfl (hfloat x)
  | bool b => cases b <;> rfl
  | str s =>
    have hquoted :
        text (.str s) ++ rest = '"' :: (s.toList.flatMap Quoted.escaped ++ '"' :: rest) := by
      rw [text, Quoted.encode, List.cons_append, List.append_assoc, List.singleton_append]
    rw [hquoted]
    exact string?_encode s
  | int n =>
    obtain ⟨c, cs, htext, hc⟩ := integerText_eq_cons n.toInt
    have hnumber := number?_integerText n (hint n rfl)
    rw [htext, List.cons_append] at hnumber
    rw [text, htext, List.cons_append, next?_of_number hc, hnumber]
  | _ => rfl

end Token

end RuleLogic.Json
