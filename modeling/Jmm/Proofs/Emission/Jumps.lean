import Jmm.Proofs.Emission.Flow

/-!
# Labels and jumps of emitted classes

Labels of lowered code are drawn from counters that run through the whole class, and comparisons are
numbered through the whole class, so no label is emitted twice in a class
(`emittedLabels_methods`).  Jumps of emitted code lead to labels of the same method (`Flows`), hence
to the only line with that label (`labels_nodup_and_jumps_placed`).
-/

set_option autoImplicit false

namespace Jmm.Jasmin

open Ollir (Instr)

/-- The labels in the lines of a method. -/
def Method.labelNames (m : Method) : List String := m.lines.filterMap Line.label?

theorem count_label (lines : List Line) (x : String) :
    lines.count (.label x) = (lines.filterMap Line.label?).count x := by
  induction lines with
  | nil => rfl
  | cons line lines ih =>
    cases line with
    | label y => simp [Line.label?, List.count_cons, ih]
    | op o =>
      rw [List.count_cons_of_ne (by simp), ih]
      rfl

/-- **No label is emitted twice in a class.** -/
theorem emittedLabels_methods {unit : Ollir.Class} {fusion : Bool} {ms : List Ollir.Method}
    {jms : List Method} {n n' : Nat}
    (hnodup : (ms.flatMap fun m ↦ Ollir.labelsOf m.listing).Nodup)
    (hgiven : ∀ x ∈ ms.flatMap fun m ↦ Ollir.labelsOf m.listing, ∀ number,
      ¬ IsComparisonLabel number x)
    (h : emitMethods unit fusion ms n = .ok (jms, n')) :
    EmittedLabels n n' (ms.flatMap fun m ↦ Ollir.labelsOf m.listing)
      (jms.flatMap Method.labelNames) := by
  induction ms generalizing n jms with
  | nil =>
    obtain ⟨rfl, rfl⟩ := Emit.pure_eq_ok_iff.mp h
    exact ⟨Nat.le_refl _, List.nodup_nil, fun _ h ↦ absurd h List.not_mem_nil⟩
  | cons m ms ih =>
    obtain ⟨jm, n₁, hfirst, h⟩ := Emit.bind_eq_ok_iff.mp h
    obtain ⟨jms', n₂, hrest, h⟩ := Emit.bind_eq_ok_iff.mp h
    obtain ⟨rfl, rfl⟩ := Emit.pure_eq_ok_iff.mp h
    obtain ⟨steps, hsteps, hlines, _⟩ := emitMethod_eq_ok hfirst
    rw [List.flatMap_cons] at hnodup hgiven ⊢
    rw [List.flatMap_cons, Method.labelNames, hlines, labelNames_eq]
    obtain ⟨hnodup₁, hnodup₂, _⟩ := List.nodup_append.mp hnodup
    have hfirst := emittedLabels_items hnodup₁
      (fun x hx ↦ hgiven x (List.mem_append_left _ hx)) hsteps
    have hlater := ih hnodup₂ (fun x hx ↦ hgiven x (List.mem_append_right _ hx)) hrest
    exact hfirst.append hlater hnodup hgiven

theorem length_emitMethods {unit : Ollir.Class} {fusion : Bool} {ms : List Ollir.Method}
    {jms : List Method} {n n' : Nat} (h : emitMethods unit fusion ms n = .ok (jms, n')) :
    jms.length = ms.length := by
  induction ms generalizing n jms with
  | nil =>
    obtain ⟨rfl, rfl⟩ := Emit.pure_eq_ok_iff.mp h
    rfl
  | cons m ms ih =>
    obtain ⟨jm, n₁, hfirst, h⟩ := Emit.bind_eq_ok_iff.mp h
    obtain ⟨jms', n₂, hrest, h⟩ := Emit.bind_eq_ok_iff.mp h
    obtain ⟨rfl, rfl⟩ := Emit.pure_eq_ok_iff.mp h
    rw [List.length_cons, List.length_cons, ih hrest]

/-- The labels in the listings of a lowered class, with slots, are those of its methods. -/
theorem labelsOf_listings (a : Analysis) (cls : ClassDecl) :
    ((a.lower cls).assignSlots.methods.flatMap fun m ↦ Ollir.labelsOf m.listing)
      = (a.lower cls).methods.flatMap Ollir.Method.labelNames := by
  rw [Ollir.Class.assignSlots, List.flatMap_map]
  refine List.flatMap_congr fun m hm ↦ ?_
  obtain ⟨d, _, names, rfl⟩ := Ollir.exists_of_mem_lowerMethods a hm
  rw [Ollir.Method.listing_assignSlots, Ollir.Lowerer.listing_method,
    Ollir.Lowerer.labelNames_method]

/-- **Labels are different, and jumps lead to one place of the same method.**  In a lowered class no
label is placed twice, and a label that an instruction names is placed in the method of that
instruction, at an index not beyond its end.  The labels of a method that is emitted are its own
and those of comparisons, of which no label of the lowered class is one.  In the class that is
emitted, too, no label stands twice, and there is one line with the label that an operation of the
same method may jump to. -/
theorem labels_nodup_and_jumps_placed (a : Analysis) (cls : ClassDecl) :
    ((a.lower cls).methods.flatMap Ollir.Method.labelNames).Nodup
      ∧ (∀ m ∈ (a.lower cls).methods, ∀ i ∈ m.instrs, ∀ x ∈ i.jumps,
        m.labelNames.count x = 1 ∧ ∃ pc ≤ m.instrs.length, (x, pc) ∈ m.labels)
      ∧ (∀ x ∈ (a.lower cls).methods.flatMap Ollir.Method.labelNames, ∀ number,
        ¬ IsComparisonLabel number x)
      ∧ ∀ fusion jc, (a.lower cls).assemble fusion = .ok jc →
        (jc.methods.flatMap Method.labelNames).Nodup
        ∧ jc.methods.length = (a.lower cls).methods.length
        ∧ ∀ (k : Nat) m jm, (a.lower cls).methods[k]? = some m → jc.methods[k]? = some jm →
          (∀ x ∈ jm.labelNames, x ∈ m.labelNames ∨ ∃ number, IsComparisonLabel number x)
          ∧ m.labelNames ⊆ jm.labelNames
          ∧ ∀ o x, .op o ∈ jm.lines → o.target? = some x → jm.lines.count (.label x) = 1 := by
  have hlabels : Ollir.LabelsIn {} _ ((a.lower cls).methods.flatMap Ollir.Method.labelNames) :=
    Ollir.labelsIn_lowerMethods a cls.methods {}
  have hgiven := fun x (hx : x ∈ _) ↦ not_isComparisonLabel hlabels hx
  refine ⟨hlabels.1, fun m hm ↦ ?_, hgiven, fun fusion jc hjc ↦ ?_⟩
  · obtain ⟨d, _, names, rfl⟩ := Ollir.exists_of_mem_lowerMethods a hm
    exact Ollir.Lowerer.isClosed_method _ names
  · obtain ⟨_, hmethods⟩ := emitClass_eq_ok hjc
    have hlisted := labelsOf_listings a cls
    refine ⟨(emittedLabels_methods (hlisted ▸ hlabels.1) (hlisted ▸ hgiven) hmethods).nodup, ?_,
      fun k m jm hm hjm ↦ ?_⟩
    · rw [length_emitMethods hmethods, Ollir.Class.assignSlots, List.length_map]
    · obtain ⟨jm', code, hjm', hcode, hlines, _⟩ := exists_soundCode a cls hjc hm
      obtain rfl : jm = jm' := Option.some.inj (hjm.symm.trans hjm')
      have hnames : jm.labelNames = labelNames code := by
        rw [Method.labelNames, hlines, labelNames_eq]
      rw [hnames]
      refine ⟨hcode.mem, fun x hx ↦ ?_, fun o x ho htarget ↦ ?_⟩
      · rw [← map_fst_labelDepths 0]
        exact List.mem_map_of_mem (hcode.empty x hx)
      · rw [hlines] at ho
        obtain ⟨⟨_, effect⟩, hs, rfl⟩ := List.mem_map.mp ho
        obtain ⟨live', hflows⟩ := hcode.flows
        obtain ⟨c, _, _, _, hreached, _⟩ := hflows.exists_fits hs
        have hmem : x ∈ labelNames code := by
          rw [← map_fst_labelDepths 0]
          exact List.mem_map_of_mem (hreached x htarget)
        rw [count_label, hlines, labelNames_eq]
        exact List.count_eq_one_of_mem hcode.nodup hmem

/-- The statement for a class of two methods `b = x < 3; b = b && x < 9; return b;`.  The comparison
on the right stands among the labels of the conjunction. -/
theorem labels_nodup_and_jumps_placed_conjunction :
    let b : Expr := .ident "b" {}
    let test (k : Int32) : Expr := .binary .less (.ident "x" {}) (.int k {}) {}
    let d (name : String) : MethodDecl :=
      { name, isPublic := true, isStatic := false, returns := { name := "boolean" },
        params := [{ name := "x", type := { name := "int" } }],
        locals := [{ name := "b", type := { name := "boolean" } }],
        body := [.assign b (test 3) {}, .assign b (.binary .and b (test 9) {}) {},
          .ret (some b) {}] }
    let cls : ClassDecl :=
      { name := "A", superclass := none, fields := [], methods := [d "f", d "g"] }
    ∃ jc jm, ((Analysis.ofClass [] cls).lower cls).assemble true = .ok jc
      ∧ jc.methods[1]? = some jm
      ∧ jm.labelNames = ["cmp_true_2", "cmp_end_2", "true_1", "cmp_true_3", "cmp_end_3", "end_1"]
      ∧ (jc.methods.flatMap Method.labelNames).Nodup
      ∧ .op (.goto "cmp_end_3") ∈ jm.lines ∧ jm.lines.count (.label "cmp_end_3") = 1 := by
  intro b test d cls
  have hshape : (((Analysis.ofClass [] cls).lower cls).assemble true).toOption.bind (fun jc ↦
      jc.methods[1]?.map fun jm ↦ (jm.labelNames, decide (.op (.goto "cmp_end_3") ∈ jm.lines)))
      = some (["cmp_true_2", "cmp_end_2", "true_1", "cmp_true_3", "cmp_end_3", "end_1"], true) := by
    decide +kernel
  have hsome : (((Analysis.ofClass [] cls).lower cls).methods[1]?).isSome = true := by
    decide +kernel
  obtain ⟨m, hm⟩ := Option.isSome_iff_exists.mp hsome
  obtain ⟨_, _, _, h⟩ := labels_nodup_and_jumps_placed (Analysis.ofClass [] cls) cls
  cases hjc : ((Analysis.ofClass [] cls).lower cls).assemble true with
  | error f =>
    rw [hjc] at hshape
    cases hshape
  | ok jc =>
    obtain ⟨hnodup, _, hmethod⟩ := h true jc hjc
    rw [hjc] at hshape
    obtain ⟨jm, hjm, hshape⟩ := Option.map_eq_some_iff.mp hshape
    obtain ⟨hnames, hgoto⟩ := Prod.mk.inj hshape
    have hgoto := of_decide_eq_true hgoto
    exact ⟨jc, jm, rfl, hjm, hnames, hnodup, hgoto, (hmethod 1 m jm hm hjm).2.2 _ _ hgoto rfl⟩

end Jmm.Jasmin
