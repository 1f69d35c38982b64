import Jmm.Ollir.Names
import Mathlib.Data.List.TakeWhile
import Mathlib.Order.Basic

/-!
# Generated names are distinct

A generated name is a stem followed by a count in decimal.  No stem ends in a digit, so the stem
and the count can be read off the name again (`append_toString_inj`), and since the stems differ
from each other, two generated names are equal only if they have the same kind and the same count
(`NameKind.name_inj`).

Counts only grow while names are drawn, which orders the states of the counters.  What was drawn
between two states is described by `Names.NewVar` for the names of variables and by
`Names.NewLabel` for labels; names drawn in two intervals that do not overlap are different.
-/

set_option autoImplicit false

namespace Jmm.Ollir

/-! ## A stem and a count -/

/-- A text that does not end in a digit. -/
def EndsOutsideDigits (s : String) : Prop := s.toList.getLast?.any Char.isDigit = false

/-- The digits at the end of a stem followed by a count are those of the count. -/
theorem takeWhile_isDigit_reverse {stem : String} (h : EndsOutsideDigits stem) (i : Nat) :
    (stem ++ toString i).toList.reverse.takeWhile Char.isDigit = (toString i).toList.reverse := by
  rw [String.toList_append, List.reverse_append, List.takeWhile_append_of_pos]
  · have hstop : stem.toList.reverse.takeWhile Char.isDigit = [] := by
      rw [EndsOutsideDigits, List.getLast?_eq_head?_reverse] at h
      cases hrev : stem.toList.reverse with
      | nil => rfl
      | cons c cs =>
        rw [hrev] at h
        have hc : c.isDigit = false := h
        rw [List.takeWhile_cons, hc]
        rfl
    rw [hstop, List.append_nil]
  · intro c hc
    rw [List.mem_reverse, Nat.toString_eq_repr, Nat.toList_repr] at hc
    exact Nat.isDigit_of_mem_toDigits (by decide) (by decide) hc

theorem toString_inj {i j : Nat} (h : toString i = toString j) : i = j := by
  rw [Nat.toString_eq_repr, Nat.toString_eq_repr] at h
  have hdigits : Nat.toDigits 10 i = Nat.toDigits 10 j := by
    rw [← Nat.toList_repr, ← Nat.toList_repr, h]
  rw [← Nat.ofDigitChars_ten_toDigits (n := i), hdigits, Nat.ofDigitChars_ten_toDigits]

/-- **A name determines its stem and its count.** -/
theorem append_toString_inj {a b : String} (ha : EndsOutsideDigits a) (hb : EndsOutsideDigits b)
    {i j : Nat} (h : a ++ toString i = b ++ toString j) : a = b ∧ i = j := by
  have hdigits : (toString i).toList.reverse = (toString j).toList.reverse := by
    rw [← takeWhile_isDigit_reverse ha, h, takeWhile_isDigit_reverse hb]
  have hij : i = j := toString_inj (String.toList_inj.mp (List.reverse_inj.mp hdigits))
  subst hij
  exact ⟨(String.append_left_inj _).mp h, rfl⟩

namespace NameKind

theorem endsOutsideDigits_stem (k : NameKind) : EndsOutsideDigits k.stem := by
  unfold EndsOutsideDigits
  cases k <;> decide

theorem stem_inj {k j : NameKind} (h : k.stem = j.stem) : k = j := by
  revert h
  cases k <;> cases j <;> decide

/-- **Generated names are distinct**: the kind and the count are determined by the name. -/
theorem name_inj {k j : NameKind} {i m : Nat} (h : k.name i = j.name m) : k = j ∧ i = m := by
  obtain ⟨hstem, hcount⟩ :=
    append_toString_inj k.endsOutsideDigits_stem j.endsOutsideDigits_stem h
  exact ⟨stem_inj hstem, hcount⟩

/-- Whether names of the kind are labels; the others are variables. -/
def isLabel : NameKind → Bool
  | temp => false
  | varargsArray => false
  | _ => true

end NameKind

/-- A name that lowering could give to a variable of its own. -/
def IsGenerated (x : String) : Prop := ∃ k i, NameKind.isLabel k = false ∧ x = k.name i

/-- A generated name starts like the stem of its kind. -/
theorem IsGenerated.head? {x : String} (h : IsGenerated x) :
    x.toList.head? = some 't' ∨ x.toList.head? = some '_' := by
  obtain ⟨k, i, hk, rfl⟩ := h
  rw [NameKind.name, String.toList_append]
  cases k with
  | temp => exact .inl rfl
  | varargsArray => exact .inr rfl
  | _ => exact absurd hk (by decide)

/-- A generated name ends in the digits of its count. -/
theorem IsGenerated.not_endsOutsideDigits {x : String} (h : IsGenerated x) :
    ¬ EndsOutsideDigits x := by
  obtain ⟨k, i, _, rfl⟩ := h
  have hne : Nat.toDigits 10 i ≠ [] := Nat.toDigits_ne_nil
  have hlast : ((Nat.toDigits 10 i).getLast hne).isDigit = true :=
    Nat.isDigit_of_mem_toDigits (by decide) (by decide) (List.getLast_mem hne)
  simp [EndsOutsideDigits, NameKind.name, List.getLast?_append,
    List.getLast?_eq_some_getLast hne, hlast]

namespace Names

/-! ## The order in which counters move -/

instance : Preorder Names where
  le n n' := ∀ k, n.count k ≤ n'.count k
  le_refl _ _ := Nat.le_refl _
  le_trans _ _ _ h h' k := Nat.le_trans (h k) (h' k)

theorem le_bump (n : Names) (k : NameKind) : n ≤ n.bump k := by
  intro j
  rw [count_bump]
  split
  · subst j; exact Nat.le_succ _
  · exact Nat.le_refl _

/-! ## What is drawn between two states of the counters -/

/-- The names of variables drawn between two states. -/
def NewVar (n n' : Names) (x : String) : Prop :=
  ∃ k i, NameKind.isLabel k = false ∧ n.count k ≤ i ∧ i < n'.count k ∧ x = k.name i

/-- The labels drawn between two states. -/
def NewLabel (n n' : Names) (x : String) : Prop :=
  ∃ k i, NameKind.isLabel k = true ∧ n.count k ≤ i ∧ i < n'.count k ∧ x = k.name i

theorem NewVar.mono {a b n n' : Names} {x : String} (h : NewVar n n' x) (ha : a ≤ n)
    (hb : n' ≤ b) : NewVar a b x := by
  obtain ⟨k, i, hk, hlow, hhigh, rfl⟩ := h
  exact ⟨k, i, hk, (ha k).trans hlow, hhigh.trans_le (hb k), rfl⟩

theorem NewLabel.mono {a b n n' : Names} {x : String} (h : NewLabel n n' x) (ha : a ≤ n)
    (hb : n' ≤ b) : NewLabel a b x := by
  obtain ⟨k, i, hk, hlow, hhigh, rfl⟩ := h
  exact ⟨k, i, hk, (ha k).trans hlow, hhigh.trans_le (hb k), rfl⟩

theorem NewVar.not_later {n n' m m' : Names} {x : String} (h : NewVar n n' x) (hle : n' ≤ m) :
    ¬ NewVar m m' x := by
  rintro ⟨j, i', _, hlow, _, hx⟩
  obtain ⟨k, i, _, _, hhigh, rfl⟩ := h
  obtain ⟨rfl, rfl⟩ := NameKind.name_inj hx
  have := hle k
  omega

theorem NewLabel.not_later {n n' m m' : Names} {x : String} (h : NewLabel n n' x) (hle : n' ≤ m) :
    ¬ NewLabel m m' x := by
  rintro ⟨j, i', _, hlow, _, hx⟩
  obtain ⟨k, i, _, _, hhigh, rfl⟩ := h
  obtain ⟨rfl, rfl⟩ := NameKind.name_inj hx
  have := hle k
  omega

/-- Nothing is drawn while the counters stand still. -/
theorem not_newVar_self (n : Names) (x : String) : ¬ NewVar n n x := by
  rintro ⟨k, i, _, hlow, hhigh, _⟩
  omega

/-- What is drawn between two states is drawn before or after a third one. -/
theorem NewVar.split {n n' : Names} {x : String} (h : NewVar n n' x) (m : Names) :
    NewVar n m x ∨ NewVar m n' x := by
  obtain ⟨k, i, hk, hlow, hhigh, rfl⟩ := h
  rcases Nat.lt_or_ge i (m.count k) with hlt | hge
  · exact .inl ⟨k, i, hk, hlow, hlt, rfl⟩
  · exact .inr ⟨k, i, hk, hge, hhigh, rfl⟩

/-- One name is drawn when a counter moves, and none of a variable if it counts labels. -/
theorem NewVar.of_bump {n : Names} {k : NameKind} {x : String} (h : NewVar n (n.bump k) x) :
    k.isLabel = false ∧ x = k.name (n.count k) := by
  obtain ⟨j, i, hj, hlow, hhigh, rfl⟩ := h
  rw [count_bump] at hhigh
  split at hhigh
  · subst j
    obtain rfl : i = n.count k := by omega
    exact ⟨hj, rfl⟩
  · omega

theorem NewVar.isGenerated {n n' : Names} {x : String} (h : NewVar n n' x) : IsGenerated x := by
  obtain ⟨k, i, hk, _, _, hx⟩ := h
  exact ⟨k, i, hk, hx⟩

/-- The next name of a kind of variable is new until the counters move past it. -/
theorem newVar_next {n n' : Names} {k : NameKind} (hk : k.isLabel = false) (h : n.bump k ≤ n') :
    NewVar n n' (k.name (n.count k)) := by
  refine ⟨k, n.count k, hk, Nat.le_refl _, ?_, rfl⟩
  have := h k
  rw [count_bump, if_pos rfl] at this
  omega

theorem newLabel_next {n n' : Names} {k : NameKind} (hk : k.isLabel = true) (h : n.bump k ≤ n') :
    NewLabel n n' (k.name (n.count k)) := by
  refine ⟨k, n.count k, hk, Nat.le_refl _, ?_, rfl⟩
  have := h k
  rw [count_bump, if_pos rfl] at this
  omega

end Names
end Jmm.Ollir
