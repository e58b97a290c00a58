import GlslCompose.Number.Reader
import GlslCompose.Proofs.Token.Words

/-!
# Digits

A whole number that is written out in some base is read back in that base, whichever case
its letters have.
-/

namespace GlslCompose.Text

private theorem toNat_digitChar {digit : Nat} (h : digit < 16) :
    digit.digitChar.toNat = if digit < 10 then 48 + digit else 87 + digit := by
  have hall : ∀ digit < 16,
      digit.digitChar.toNat = if digit < 10 then 48 + digit else 87 + digit := by decide
  exact hall digit h

private theorem toNat_toLower (char : Char) :
    char.toLower.toNat =
      if 65 ≤ char.toNat ∧ char.toNat ≤ 90 then char.toNat + 32 else char.toNat := by
  unfold Char.toLower
  have hcase : (char.val ≥ 'A'.val ∧ char.val ≤ 'Z'.val) ↔ (65 ≤ char.toNat ∧ char.toNat ≤ 90) := by
    rw [ge_iff_le, UInt32.le_iff_toNat_le, UInt32.le_iff_toNat_le]
    rfl
  split
  · rename_i hupper
    rw [if_pos (hcase.mp hupper)]
    have hbound := (hcase.mp hupper).2
    have hadd : (char.val + ('a'.val - 'A'.val)).toNat = (char.toNat + 32) % 2 ^ 32 :=
      UInt32.toNat_add _ _
    exact hadd.trans (Nat.mod_eq_of_lt (by omega))
  · rename_i hother
    rw [if_neg (mt hcase.mpr hother)]

private theorem digitValue_of_toLower {digit : Nat} (hdigit : digit < 16) {char : Char}
    (h : char.toLower = digit.digitChar) : isHexDigit char = true ∧ digitValue char = digit := by
  have hcode := congrArg Char.toNat h
  rw [toNat_toLower, toNat_digitChar hdigit] at hcode
  have hlower : ('a' ≤ char && char ≤ 'f') = true ↔ 97 ≤ char.toNat ∧ char.toNat ≤ 102 := by
    simp [Char.le_def, UInt32.le_iff_toNat_le]
  have hupper : ('A' ≤ char && char ≤ 'F') = true ↔ 65 ≤ char.toNat ∧ char.toNat ≤ 70 := by
    simp [Char.le_def, UInt32.le_iff_toNat_le]
  have hcases : (char.toNat = 48 + digit ∧ digit < 10) ∨ (char.toNat = 87 + digit ∧ 10 ≤ digit) ∨
      (char.toNat = 55 + digit ∧ 10 ≤ digit) := by
    split at hcode <;> split at hcode <;> omega
  rcases hcases with ⟨hchar, hless⟩ | ⟨hchar, hge⟩ | ⟨hchar, hge⟩
  · have hdecimal : isDecimalDigit char = true := (isDecimalDigit_iff char).mpr (by omega)
    rw [isHexDigit, digitValue, if_pos hdecimal, hdecimal, hchar]
    exact ⟨rfl, Nat.add_sub_cancel_left 48 digit⟩
  · have hdecimal : ¬isDecimalDigit char = true := fun h => by
      have hrange := (isDecimalDigit_iff char).mp h
      omega
    have hletter := hlower.mpr (by omega)
    rw [isHexDigit, digitValue, if_neg hdecimal, if_pos hletter, hletter, hchar,
      show 'a'.toNat = 97 from rfl]
    exact ⟨by simp, by omega⟩
  · have hdecimal : ¬isDecimalDigit char = true := fun h => by
      have hrange := (isDecimalDigit_iff char).mp h
      omega
    have hother : ¬('a' ≤ char && char ≤ 'f') = true := fun h => by
      have hrange := hlower.mp h
      omega
    have hletter := hupper.mpr (by omega)
    rw [isHexDigit, digitValue, if_neg hdecimal, if_neg hother, hletter, hchar,
      show 'A'.toNat = 65 from rfl]
    exact ⟨by simp, by omega⟩

@[simp] private theorem digitsValue_concat (base : Nat) (digits : Text) (last : Char) :
    digitsValue base (digits ++ [last]) = base * digitsValue base digits + digitValue last := by
  simp [digitsValue]

section ToDigits

variable {base number : Nat} {digits : Text}

theorem digits_of_toDigits (hbase : 1 < base) (hle : base ≤ 16)
    (h : digits.map Char.toLower = Nat.toDigits base number) :
    (∀ char ∈ digits, isHexDigit char = true ∧ digitValue char < base) ∧
      digitsValue base digits = number := by
  induction number using Nat.strongRecOn generalizing digits with
  | ind number ih =>
      rcases Nat.lt_or_ge number base with hless | hge
      · rw [Nat.toDigits_of_lt_base hless] at h
        obtain ⟨char, rest, rfl, hchar, hrest⟩ := List.map_eq_cons_iff.mp h
        obtain rfl := List.map_eq_nil_iff.mp hrest
        obtain ⟨hhex, hvalue⟩ := digitValue_of_toLower (Nat.lt_of_lt_of_le hless hle) hchar
        refine ⟨List.forall_mem_singleton.mpr ⟨hhex, hvalue ▸ hless⟩, ?_⟩
        simp [digitsValue, hvalue]
      · rw [Nat.toDigits_of_base_le hbase hge] at h
        obtain ⟨init, final, rfl, hinit, hfinal⟩ := List.map_eq_append_iff.mp h
        obtain ⟨last, rest, rfl, hlast, hrest⟩ := List.map_eq_cons_iff.mp hfinal
        obtain rfl := List.map_eq_nil_iff.mp hrest
        have hmod := Nat.mod_lt number (Nat.lt_trans Nat.zero_lt_one hbase)
        obtain ⟨hhex, hvalue⟩ := digitValue_of_toLower (Nat.lt_of_lt_of_le hmod hle) hlast
        obtain ⟨hdigits, hnumber⟩ := ih (number / base) (Nat.div_lt_self (by omega) hbase) hinit
        refine ⟨List.forall_mem_append.mpr ⟨hdigits,
          List.forall_mem_singleton.mpr ⟨hhex, hvalue ▸ hmod⟩⟩, ?_⟩
        rw [digitsValue_concat, hnumber, hvalue, Nat.div_add_mod]

private theorem ne_nil_of_toDigits (h : digits.map Char.toLower = Nat.toDigits base number) :
    digits ≠ [] := by
  rintro rfl
  exact Nat.toDigits_ne_nil h.symm

theorem readNat?_of_toDigits (hbase : 1 < base) (hle : base ≤ 16)
    (h : digits.map Char.toLower = Nat.toDigits base number) :
    readNat? base digits = some number := by
  obtain ⟨hdigits, hvalue⟩ := digits_of_toDigits hbase hle h
  have hall : digits.all (fun char => isHexDigit char && digitValue char < base) = true :=
    List.all_eq_true.mpr fun char hmem => by simp [hdigits char hmem]
  rw [readNat?, if_pos ⟨ne_nil_of_toDigits h, hall⟩, hvalue]

theorem isDecimalDigit_of_mem_toDigits (hbase : 1 < base) (hle : base ≤ 10) {char : Char}
    (h : char ∈ Nat.toDigits base number) : isDecimalDigit char = true := by
  have hdigit := Nat.isDigit_of_mem_toDigits (Nat.lt_trans Nat.zero_lt_one hbase) hle h
  exact hdigit

theorem map_toLower_toDigits (hbase : 1 < base) (hle : base ≤ 10) :
    (Nat.toDigits base number).map Char.toLower = Nat.toDigits base number := by
  refine (List.map_congr_left fun char hmem => ?_).trans (List.map_id _)
  have hrange := (isDecimalDigit_iff char).mp (isDecimalDigit_of_mem_toDigits hbase hle hmem)
  refine Char.toNat_inj.mp ?_
  rw [toNat_toLower, if_neg (by omega)]
  rfl

end ToDigits

/-! ## Decimal numbers -/

private theorem ofNat_eq (number : Nat) : ofNat number = Nat.toDigits 10 number := by
  rw [ofNat, Nat.repr_eq_ofList_toDigits, String.toList_ofList]

theorem isDecimalDigit_of_mem_ofNat {number : Nat} {char : Char} (h : char ∈ ofNat number) :
    isDecimalDigit char = true :=
  isDecimalDigit_of_mem_toDigits (by decide) (Nat.le_refl 10) (ofNat_eq number ▸ h)

theorem ofNat_ne_nil (number : Nat) : ofNat number ≠ [] := by
  rw [ofNat_eq]
  exact Nat.toDigits_ne_nil

private theorem head?_ofNat {number : Nat} (hpos : 0 < number) :
    (ofNat number).head? ≠ some '0' := by
  induction number using Nat.strongRecOn with
  | ind number ih =>
      rw [ofNat_eq]
      rcases Nat.lt_or_ge number 10 with hless | hge
      · have hdigit : ∀ number < 10, 0 < number → Nat.digitChar number ≠ '0' := by decide
        rw [Nat.toDigits_of_lt_base hless]
        simpa using hdigit number hless hpos
      · have hshort := ih (number / 10) (by omega) (by omega)
        rw [ofNat_eq] at hshort
        rw [Nat.toDigits_of_base_le (by decide) hge,
          List.head?_append_of_ne_nil _ Nat.toDigits_ne_nil]
        exact hshort

theorem ofNat_ne_zero_cons (number : Nat) (mark : Char) (rest : Text) :
    ofNat number ≠ '0' :: mark :: rest := by
  intro heq
  rcases Nat.eq_zero_or_pos number with rfl | hpos
  · cases heq
  · exact head?_ofNat hpos (by rw [heq]; rfl)

@[simp] theorem readNat?_ofNat (number : Nat) : readNat? 10 (ofNat number) = some number :=
  readNat?_of_toDigits (by decide) (by decide)
    ((congrArg (List.map Char.toLower) (ofNat_eq number)).trans
      (map_toLower_toDigits (by decide) (Nat.le_refl 10)))

end GlslCompose.Text
