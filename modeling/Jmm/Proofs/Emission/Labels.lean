import Jmm.Proofs.Emission.Runs
import Jmm.Proofs.Lowering.Labels

/-!
# Labels of emitted code

The labels in the code of labels and instructions are those labels and the labels of comparisons,
which are numbered through the whole class (`labelNames_instr`).  The two kinds never clash, as a
label of lowered code does not start like that of a comparison, so no label is emitted twice in a
method (`emittedLabels_items`).
-/

set_option autoImplicit false

namespace Jmm.Jasmin

open Ollir (Operand Instr Call)

/-- The labels in code. -/
def labelNames (code : List Step) : List String := code.filterMap fun s ↦ s.line.label?

section LabelNames

variable {a b : List Step} {o : Op} {effect : Int} {name : String}

@[simp] theorem labelNames_nil : labelNames [] = [] := rfl

@[simp] theorem labelNames_append : labelNames (a ++ b) = labelNames a ++ labelNames b :=
  List.filterMap_append

@[simp] theorem labelNames_op : labelNames (.op o effect :: a) = labelNames a := rfl

@[simp] theorem labelNames_label : labelNames (.label name :: a) = name :: labelNames a := rfl

theorem labelNames_eq (code : List Step) :
    (code.map Step.line).filterMap Line.label? = labelNames code := by
  rw [List.filterMap_map]
  rfl

end LabelNames

/-! ## Code without labels -/

variable {e : Emitter} {code : List Step}

theorem labelNames_load {o : Operand} (h : e.load o = .ok code) : labelNames code = [] := by
  induction o generalizing code with
  | literal value type =>
    obtain rfl := Except.ok.inj h
    rfl
  | var name type =>
    obtain ⟨slot, _, h⟩ := bind_eq_ok_iff.mp h
    obtain rfl := Except.ok.inj h
    rfl
  | element name index type ih =>
    obtain ⟨slot, _, h⟩ := bind_eq_ok_iff.mp h
    obtain ⟨position, hposition, h⟩ := bind_eq_ok_iff.mp h
    obtain rfl := Except.ok.inj h
    simp [ih hposition]
  | receiver className =>
    obtain rfl := Except.ok.inj h
    rfl
  | classRef name => exact nomatch h

theorem labelNames_loads {os : List Operand} (h : e.loads os = .ok code) :
    labelNames code = [] := by
  induction os generalizing code with
  | nil =>
    obtain rfl := Except.ok.inj h
    rfl
  | cons o os ih =>
    obtain ⟨first, hfirst, h⟩ := bind_eq_ok_iff.mp h
    obtain ⟨rest, hrest, h⟩ := bind_eq_ok_iff.mp h
    obtain rfl := Except.ok.inj h
    rw [labelNames_append, labelNames_load hfirst, ih hrest, List.nil_append]

theorem labelNames_invoke {call : Call} {isStatic : Bool} (h : e.invoke call isStatic = .ok code) :
    labelNames code = [] := by
  obtain ⟨caller, args, method, owner, hcaller, hargs, _, _, rfl⟩ := Emitter.invoke_eq_ok h
  have hnone : labelNames caller = [] := by
    cases isStatic with
    | true => rw [show caller = [] from hcaller, labelNames_nil]
    | false => exact labelNames_load hcaller
  simp [hnone, labelNames_loads hargs]

theorem labelNames_call {call : Call} (h : e.call call = .ok code) : labelNames code = [] := by
  cases e.callCode_of_ok h with
  | newArray _ _ _ hsize => simp [labelNames_load hsize]
  | newObject => rfl
  | arrayLength _ hcaller | construct _ hcaller => simp [labelNames_load hcaller]
  | named _ hcode => exact labelNames_invoke hcode

/-! ## Labels of comparisons -/

/-- A label of the comparison with a number. -/
def IsComparisonLabel (number : Nat) (x : String) : Prop :=
  x = "cmp_true_" ++ toString number ∨ x = "cmp_end_" ++ toString number

/-- Different labels of comparisons that have been numbered from one count up to another. -/
structure ComparisonLabels (n n' : Nat) (labels : List String) : Prop where
  le : n ≤ n'
  nodup : labels.Nodup
  mem : ∀ x ∈ labels, ∃ number, n ≤ number ∧ number < n' ∧ IsComparisonLabel number x

theorem comparisonLabels_nil (n : Nat) : ComparisonLabels n n [] :=
  ⟨Nat.le_refl n, List.nodup_nil, fun _ h ↦ absurd h List.not_mem_nil⟩

theorem endsOutsideDigits_cmp :
    Ollir.EndsOutsideDigits "cmp_true_" ∧ Ollir.EndsOutsideDigits "cmp_end_" := by
  unfold Ollir.EndsOutsideDigits
  decide

/-- A label of a comparison tells its number. -/
theorem IsComparisonLabel.number_inj {x : String} {i j : Nat} (hi : IsComparisonLabel i x)
    (hj : IsComparisonLabel j x) : i = j := by
  obtain ⟨htrue, hend⟩ := endsOutsideDigits_cmp
  rcases hi with rfl | rfl <;> rcases hj with h | h
  · exact (Ollir.append_toString_inj htrue htrue h).2
  · exact (Ollir.append_toString_inj htrue hend h).2
  · exact (Ollir.append_toString_inj hend htrue h).2
  · exact (Ollir.append_toString_inj hend hend h).2

/-- A label of lowered code is none of a comparison. -/
theorem IsComparisonLabel.ne_name {x : String} {number i : Nat} (h : IsComparisonLabel number x)
    (k : Ollir.NameKind) : x ≠ k.name i := by
  obtain ⟨htrue, hend⟩ := endsOutsideDigits_cmp
  rintro rfl
  rcases h with h | h
  · have hstem := (Ollir.append_toString_inj k.endsOutsideDigits_stem htrue h).1
    cases k <;> exact absurd hstem (by decide)
  · have hstem := (Ollir.append_toString_inj k.endsOutsideDigits_stem hend h).1
    cases k <;> exact absurd hstem (by decide)

theorem not_isComparisonLabel {a b : Ollir.Names} {labels : List String}
    (h : Ollir.LabelsIn a b labels) {x : String} (hx : x ∈ labels) (number : Nat) :
    ¬ IsComparisonLabel number x := by
  intro hcomparison
  obtain ⟨k, i, _, _, _, rfl⟩ := h.2 x hx
  exact hcomparison.ne_name k rfl

variable {n n' : Nat}

theorem labelNames_comparison (h : comparison n = .ok (code, n')) :
    ComparisonLabels n n' (labelNames code) := by
  obtain ⟨rfl, rfl⟩ := Prod.mk.inj (Except.ok.inj h)
  refine ⟨Nat.le_succ n, ?_, ?_⟩
  · show ["cmp_true_" ++ toString n, "cmp_end_" ++ toString n].Nodup
    simp
  · intro x hx
    refine ⟨n, Nat.le_refl n, Nat.lt_succ_self n, ?_⟩
    simpa [labelNames, Step.op, Step.label, Line.label?, IsComparisonLabel] using hx

theorem labelNames_value {i : Instr} (h : e.value i n = .ok (code, n')) :
    ComparisonLabels n n' (labelNames code) := by
  cases i with
  | single o =>
    obtain ⟨hload, rfl⟩ := Emit.lift_eq_ok_iff.mp h
    rw [labelNames_load hload]
    exact comparisonLabels_nil _
  | binary op left right type =>
    obtain ⟨x, hx, h⟩ := Emit.lift_bind_eq_ok_iff.mp h
    obtain ⟨y, hy, h⟩ := Emit.lift_bind_eq_ok_iff.mp h
    cases ha : arithOf op with
    | some a =>
      rw [ha] at h
      obtain ⟨rfl, rfl⟩ := Emit.pure_eq_ok_iff.mp h
      simp only [labelNames_append, labelNames_load hx, labelNames_load hy]
      exact comparisonLabels_nil _
    | none =>
      rw [ha] at h
      obtain ⟨test, n₁, htest, h⟩ := Emit.bind_eq_ok_iff.mp h
      obtain ⟨rfl, rfl⟩ := Emit.pure_eq_ok_iff.mp h
      simp only [labelNames_append, labelNames_load hx, labelNames_load hy, List.nil_append]
      exact labelNames_comparison htest
  | not o type =>
    obtain ⟨x, hx, h⟩ := Emit.lift_bind_eq_ok_iff.mp h
    obtain ⟨rfl, rfl⟩ := Emit.pure_eq_ok_iff.mp h
    simp only [labelNames_append, labelNames_load hx]
    exact comparisonLabels_nil _
  | call call =>
    rw [Emitter.value] at h
    split at h
    · exact nomatch h
    · obtain ⟨hcall, rfl⟩ := Emit.lift_eq_ok_iff.mp h
      rw [labelNames_call hcall]
      exact comparisonLabels_nil _
  | getField object field type =>
    obtain ⟨x, hx, h⟩ := Emit.lift_bind_eq_ok_iff.mp h
    obtain ⟨owner, _, h⟩ := Emit.lift_bind_eq_ok_iff.mp h
    obtain ⟨rfl, rfl⟩ := Emit.pure_eq_ok_iff.mp h
    simp only [labelNames_append, labelNames_load hx]
    exact comparisonLabels_nil _
  | _ => exact nomatch h

theorem labelNames_assign {target : Operand} {value : Instr}
    (h : e.assign target value n = .ok (code, n')) : ComparisonLabels n n' (labelNames code) := by
  rcases Emitter.assign_eq_ok h with h | ⟨_, _, _, rfl, rfl⟩
  · cases target with
    | var x t =>
      obtain ⟨slot, _, h⟩ := Emit.lift_bind_eq_ok_iff.mp h
      obtain ⟨valueCode, n₁, hvalue, h⟩ := Emit.bind_eq_ok_iff.mp h
      obtain ⟨rfl, rfl⟩ := Emit.pure_eq_ok_iff.mp h
      simpa using labelNames_value hvalue
    | element x index t =>
      obtain ⟨slot, _, h⟩ := Emit.lift_bind_eq_ok_iff.mp h
      obtain ⟨position, hposition, h⟩ := Emit.lift_bind_eq_ok_iff.mp h
      obtain ⟨valueCode, n₁, hvalue, h⟩ := Emit.bind_eq_ok_iff.mp h
      obtain ⟨rfl, rfl⟩ := Emit.pure_eq_ok_iff.mp h
      simpa [labelNames_load hposition] using labelNames_value hvalue
    | _ => exact nomatch h
  · exact comparisonLabels_nil _

theorem labelNames_branch {test : Instr} {label : String}
    (h : e.branch test label n = .ok (code, n')) : ComparisonLabels n n' (labelNames code) := by
  rw [Emitter.branch.eq_def] at h
  split at h
  · obtain ⟨x, hx, h⟩ := Emit.lift_bind_eq_ok_iff.mp h
    obtain ⟨y, hy, h⟩ := Emit.lift_bind_eq_ok_iff.mp h
    obtain ⟨rfl, rfl⟩ := Emit.pure_eq_ok_iff.mp h
    simpa [labelNames_load hx, labelNames_load hy] using comparisonLabels_nil n'
  · obtain ⟨x, hx, h⟩ := Emit.lift_bind_eq_ok_iff.mp h
    obtain ⟨rfl, rfl⟩ := Emit.pure_eq_ok_iff.mp h
    simpa [labelNames_load hx] using comparisonLabels_nil n'
  · obtain ⟨valueCode, n₁, hvalue, h⟩ := Emit.bind_eq_ok_iff.mp h
    obtain ⟨rfl, rfl⟩ := Emit.pure_eq_ok_iff.mp h
    simpa using labelNames_value hvalue

/-- The labels in the code of an instruction are those of its comparison. -/
theorem labelNames_instr {i : Instr} (h : e.instr i n = .ok (code, n')) :
    ComparisonLabels n n' (labelNames code) := by
  cases i with
  | assign target type value => exact labelNames_assign h
  | branch test label => exact labelNames_branch h
  | call call =>
    obtain ⟨callCode, hcall, h⟩ := Emit.lift_bind_eq_ok_iff.mp h
    obtain ⟨rfl, rfl⟩ := Emit.pure_eq_ok_iff.mp h
    have hnone := labelNames_call hcall
    split <;> simpa [hnone] using comparisonLabels_nil n'
  | putField object field type value =>
    obtain ⟨x, hx, h⟩ := Emit.lift_bind_eq_ok_iff.mp h
    obtain ⟨y, hy, h⟩ := Emit.lift_bind_eq_ok_iff.mp h
    obtain ⟨owner, _, h⟩ := Emit.lift_bind_eq_ok_iff.mp h
    obtain ⟨rfl, rfl⟩ := Emit.pure_eq_ok_iff.mp h
    simpa [labelNames_load hx, labelNames_load hy] using comparisonLabels_nil n'
  | goto label =>
    obtain ⟨rfl, rfl⟩ := Emit.pure_eq_ok_iff.mp h
    exact comparisonLabels_nil _
  | ret type value =>
    cases value with
    | none =>
      obtain ⟨rfl, rfl⟩ := Emit.pure_eq_ok_iff.mp h
      exact comparisonLabels_nil _
    | some o =>
      obtain ⟨x, hx, h⟩ := Emit.lift_bind_eq_ok_iff.mp h
      obtain ⟨rfl, rfl⟩ := Emit.pure_eq_ok_iff.mp h
      simpa [labelNames_load hx] using comparisonLabels_nil n'
  | _ =>
    obtain ⟨valueCode, n₁, hvalue, h⟩ := Emit.bind_eq_ok_iff.mp h
    obtain ⟨rfl, rfl⟩ := Emit.pure_eq_ok_iff.mp h
    simpa using labelNames_value hvalue

/-! ## Labels and instructions -/

/-- The labels in the code of labels and instructions, where no label is one of a comparison. -/
structure EmittedLabels (n n' : Nat) (given labels : List String) : Prop where
  le : n ≤ n'
  nodup : labels.Nodup
  mem : ∀ x ∈ labels, x ∈ given ∨ ∃ number, n ≤ number ∧ number < n' ∧ IsComparisonLabel number x

theorem ComparisonLabels.emitted {labels : List String} (h : ComparisonLabels n n' labels) :
    EmittedLabels n n' [] labels :=
  ⟨h.le, h.nodup, fun x hx ↦ .inr (h.mem x hx)⟩

theorem EmittedLabels.append {m : Nat} {given given' labels labels' : List String}
    (h : EmittedLabels n m given labels) (h' : EmittedLabels m n' given' labels')
    (hnodup : (given ++ given').Nodup)
    (hgiven : ∀ x ∈ given ++ given', ∀ number, ¬ IsComparisonLabel number x) :
    EmittedLabels n n' (given ++ given') (labels ++ labels') := by
  refine ⟨h.le.trans h'.le, List.nodup_append.mpr ⟨h.nodup, h'.nodup, ?_⟩, fun x hx ↦ ?_⟩
  · -- a given label is none of a comparison, and a comparison before has a smaller number
    rintro x hx _ hx' rfl
    rcases h.mem x hx with hin | ⟨number, _, hlt, hcomparison⟩
    · rcases h'.mem x hx' with hin' | ⟨number', _, _, hcomparison'⟩
      · exact (List.nodup_append.mp hnodup).2.2 x hin x hin' rfl
      · exact hgiven x (List.mem_append_left _ hin) number' hcomparison'
    · rcases h'.mem x hx' with hin' | ⟨number', hge, _, hcomparison'⟩
      · exact hgiven x (List.mem_append_right _ hin') number hcomparison
      · have := hcomparison.number_inj hcomparison'
        omega
  · rcases List.mem_append.mp hx with hx | hx
    · refine (h.mem x hx).imp (List.mem_append_left _) ?_
      rintro ⟨number, hge, hlt, hcomparison⟩
      exact ⟨number, hge, hlt.trans_le h'.le, hcomparison⟩
    · refine (h'.mem x hx).imp (List.mem_append_right _) ?_
      rintro ⟨number, hge, hlt, hcomparison⟩
      exact ⟨number, h.le.trans hge, hlt, hcomparison⟩

/-- **No label is emitted twice.** -/
theorem emittedLabels_items {items : List Ollir.Item} (hnodup : (Ollir.labelsOf items).Nodup)
    (hgiven : ∀ x ∈ Ollir.labelsOf items, ∀ number, ¬ IsComparisonLabel number x)
    (h : e.items items n = .ok (code, n')) :
    EmittedLabels n n' (Ollir.labelsOf items) (labelNames code) := by
  induction items generalizing n code with
  | nil =>
    obtain ⟨rfl, rfl⟩ := Emit.pure_eq_ok_iff.mp h
    exact ⟨Nat.le_refl _, List.nodup_nil, fun _ h ↦ absurd h List.not_mem_nil⟩
  | cons item items ih =>
    obtain ⟨first, n₁, hfirst, h⟩ := Emit.bind_eq_ok_iff.mp h
    obtain ⟨rest, n₂, hrest, h⟩ := Emit.bind_eq_ok_iff.mp h
    obtain ⟨rfl, rfl⟩ := Emit.pure_eq_ok_iff.mp h
    have hhead : EmittedLabels n n₁ (Ollir.labelsOf [item]) (labelNames first) := by
      cases item with
      | label name =>
        obtain ⟨rfl, rfl⟩ := Emit.pure_eq_ok_iff.mp hfirst
        exact ⟨Nat.le_refl _, List.nodup_singleton name, fun x hx ↦ .inl hx⟩
      | instr i => exact (labelNames_instr hfirst).emitted
    rw [← List.singleton_append, Ollir.labelsOf_append] at hnodup hgiven ⊢
    rw [labelNames_append]
    exact hhead.append (ih (List.nodup_append.mp hnodup).2.1
      (fun x hx ↦ hgiven x (List.mem_append_right _ hx)) hrest) hnodup hgiven

end Jmm.Jasmin
