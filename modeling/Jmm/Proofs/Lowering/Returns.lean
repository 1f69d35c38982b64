import Jmm.Proofs.Lowering.Temporaries

/-!
# Control leaves a method at a return

A method gets a return at its end only if no return stands at the top level of its body, wherever
that may be.  What follows a return at the top level may end in anything, even in a label that
leads past the last instruction.

None of this is ever reached.  Code that jumps to its own labels only can be left at its end only
(`Method.Follows.le_end`).  So the closed code before the first return at the top level leads to
that return and no further (`Method.Path.le_return`), and on every path through a lowered method
there is an instruction to go on with until a return is reached (`control_stops_at_returns`).
-/

set_option autoImplicit false

namespace Jmm.Ollir

open Semantics

theorem Instr.mem_jumps_of_target? {i : Instr} {x : String} (h : i.target? = some x) :
    x ∈ i.jumps := by
  cases i with
  | branch test label | goto label =>
    obtain rfl := Option.some.inj h
    exact List.mem_cons_self
  | _ => cases h

/-- Nothing follows a return. -/
theorem Method.not_follows_ret {m : Method} {t : Ty} {v : Option Operand} {pc pc' : Nat} :
    ¬ m.Follows (.ret t v) pc pc' := by
  rintro (⟨hfalls, _⟩ | ⟨x, htarget, _⟩)
  · cases hfalls
  · cases htarget

/-! ## Leaving closed code -/

section Placed

variable {m : Method} {start pc pc' : Nat} {code : List Item} {i : Instr}

/-- What stands where the code is, is an instruction of the code. -/
theorem Placed.exists_instr (h : Placed m start code) (hle : start ≤ pc)
    (hlt : pc < start + codeSize code) : ∃ i ∈ instrsOf code, m.instrs[pc]? = some i := by
  induction code generalizing start with
  | nil => exact absurd hlt (Nat.not_lt.mpr hle)
  | cons item code ih =>
    cases item with
    | label name => exact ih h.2 hle hlt
    | instr i =>
      rcases Nat.eq_or_lt_of_le hle with rfl | hle
      · exact ⟨i, List.mem_cons_self, h.1⟩
      · rw [codeSize_instr] at hlt
        obtain ⟨j, hj, hpc⟩ := ih h.2 hle (by omega)
        exact ⟨j, List.mem_cons_of_mem i hj, hpc⟩

/-- A label in code leads to where the code is, or to its end. -/
theorem Placed.labelTarget?_le {x : String} (h : Placed m start code) (hx : x ∈ labelsOf code) :
    ∃ pc ≤ start + codeSize code, m.labelTarget? x = some pc := by
  induction code generalizing start with
  | nil => exact absurd hx List.not_mem_nil
  | cons item code ih =>
    cases item with
    | label name =>
      rcases List.mem_cons.mp hx with rfl | hx
      · exact ⟨start, Nat.le_add_right _ _, h.1⟩
      · exact ih h.2 hx
    | instr i =>
      obtain ⟨pc, hpc, htarget⟩ := ih h.2 hx
      rw [codeSize_instr]
      exact ⟨pc, by omega, htarget⟩

/-- **Control leaves closed code at its end only.** -/
theorem Method.Follows.le_end (h : m.Follows i pc pc') (hi : m.instrs[pc]? = some i)
    (hplaced : Placed m start code) (hclosed : Closed code) (hle : start ≤ pc)
    (hlt : pc < start + codeSize code) : pc' ≤ start + codeSize code := by
  rcases h with ⟨_, rfl⟩ | ⟨x, hx, htarget⟩
  · exact hlt
  · obtain ⟨j, hj, hpc⟩ := hplaced.exists_instr hle hlt
    obtain rfl := Option.some.inj (hi.symm.trans hpc)
    -- the label stands in the code, because the code is closed
    have hlabel : x ∈ labelsOf code :=
      hclosed (List.mem_flatMap.mpr ⟨i, hj, Instr.mem_jumps_of_target? hx⟩)
    obtain ⟨pc₁, hle₁, htarget₁⟩ := hplaced.labelTarget?_le hlabel
    obtain rfl := Option.some.inj (htarget.symm.trans htarget₁)
    exact hle₁

/-- Paths do not go beyond a return after closed code. -/
theorem Method.Path.le_return {is : List Instr} {t : Ty} {v : Option Operand} {rest : List Item}
    (h : m.Path is pc) (hplaced : Placed m 0 (code ++ .instr (.ret t v) :: rest))
    (hclosed : Closed code) : pc ≤ codeSize code := by
  obtain ⟨hcode, hret, _⟩ := placed_append.mp hplaced
  rw [Nat.zero_add] at hret
  induction h with
  | start => exact Nat.zero_le _
  | @step is i pc pc' _ hi hnext ih =>
    rcases Nat.eq_or_lt_of_le ih with rfl | hlt
    · obtain rfl := Option.some.inj (hret.symm.trans hi)
      exact absurd hnext Method.not_follows_ret
    · have hend := hnext.le_end hi hcode hclosed (Nat.zero_le pc) (by rwa [Nat.zero_add])
      rwa [Nat.zero_add] at hend

end Placed

/-! ## Lowered methods -/

namespace Lowerer

variable (l : Lowerer)

/-- The code of statements with a return at the top level is closed up to the first one. -/
theorem exists_return_stmts {sts : List Stmt} (h : sts.any Stmt.isReturn = true) (n : Names) :
    ∃ code t v rest, (l.stmts sts n).1 = code ++ .instr (.ret t v) :: rest ∧ Closed code := by
  induction sts generalizing n with
  | nil => cases h
  | cons st sts ih =>
    rw [Lowerer.stmts]
    simp only [Draw.bind_apply, Draw.pure_apply]
    cases hst : st.isReturn with
    | false =>
      rw [List.any_cons, hst, Bool.false_or] at h
      obtain ⟨code, t, v, rest, heq, hclosed⟩ := ih h (l.stmt st n).2
      refine ⟨(l.stmt st n).1 ++ code, t, v, rest, ?_, (l.closed_stmt st n).append hclosed⟩
      rw [heq, List.append_assoc]
    | true =>
      cases st with
      | ret value span =>
        cases value with
        | none => exact ⟨[], _, _, _, rfl, closed_nil⟩
        | some e =>
          have hcode := structured_asOperand (l.structured_expr e (l.allows_true _) [] .operand) n
          exact ⟨_, l.returnType, some (asOperand (l.expr e .operand) n).1.2, _,
            List.append_assoc _ _ _, hcode.1.closed⟩
      | _ => cases hst

/-- The code of a method is closed up to a return. -/
theorem exists_return_code (n : Names) :
    ∃ code t v rest, l.code n = code ++ .instr (.ret t v) :: rest ∧ Closed code := by
  rw [Lowerer.code]
  cases hreturn : l.decl.hasReturn with
  | true =>
    obtain ⟨code, t, v, rest, heq, hclosed⟩ := l.exists_return_stmts hreturn n
    exact ⟨code, t, v, rest, by rw [heq, if_pos rfl, List.append_nil], hclosed⟩
  | false =>
    exact ⟨_, .void, none, [], rfl, l.closed_stmts (fun st _ ↦ l.closed_stmt st) n⟩

/-- On a path through a lowered method there is always an instruction to go on with. -/
theorem lt_length_of_path {n : Names} {is : List Instr} {pc : Nat}
    (h : (l.method n).1.Path is pc) : pc < (l.method n).1.instrs.length := by
  obtain ⟨code, t, v, rest, heq, hclosed⟩ := l.exists_return_code n
  have hplaced := l.placed_method n
  rw [heq] at hplaced
  have hle := h.le_return hplaced hclosed
  have hsize : (l.method n).1.instrs.length = codeSize code + (codeSize rest + 1) := by
    rw [instrs_method, heq]
    exact codeSize_append _ _
  omega

/-- The labels that a lowered method jumps to are placed. -/
theorem exists_labelTarget? {n : Names} {i : Instr} (hi : i ∈ (l.method n).1.instrs) {x : String}
    (hx : i.target? = some x) : ∃ pc, (l.method n).1.labelTarget? x = some pc := by
  rw [instrs_method] at hi
  have hlabel : x ∈ labelsOf (l.code n) :=
    l.closed_code n (List.mem_flatMap.mpr ⟨i, hi, Instr.mem_jumps_of_target? hx⟩)
  obtain ⟨pc, _, htarget⟩ := (l.placed_method n).labelTarget?_le hlabel
  exact ⟨pc, htarget⟩

end Lowerer

/-- Control goes on from every instruction but a return, if its label is placed. -/
theorem Method.exists_follows {m : Method} {i : Instr} {pc : Nat} (hret : ∀ t v, i ≠ .ret t v)
    (hlabel : ∀ x, i.target? = some x → ∃ pc', m.labelTarget? x = some pc') :
    ∃ pc', m.Follows i pc pc' := by
  cases i with
  | ret t v => exact absurd rfl (hret t v)
  | goto x =>
    obtain ⟨pc', htarget⟩ := hlabel x rfl
    exact ⟨pc', .inr ⟨x, rfl, htarget⟩⟩
  | _ => exact ⟨pc + 1, .inl ⟨rfl, rfl⟩⟩

/-- **Control leaves a method at a return only.**  Whatever the tests on the way give, a path
through a lowered method is always at one of its instructions.  A label that this may jump to is
placed in the method, and control goes on unless the instruction is a return.  The runs of the
method are such paths. -/
theorem control_stops_at_returns (a : Analysis) (cls : ClassDecl) {m : Method}
    (hm : m ∈ (a.lower cls).methods) :
    (∀ is pc, m.Path is pc → pc < m.instrs.length ∧ ∃ i, m.instrs[pc]? = some i
      ∧ (∀ x, i.target? = some x → ∃ pc', m.labelTarget? x = some pc')
      ∧ ((∃ pc', m.Follows i pc pc') ↔ ∀ t v, i ≠ .ret t v))
      ∧ ∀ c env s pc env' s', m.Steps c (.running 0 env s) (.running pc env' s') →
        ∃ is, m.Path is pc := by
  obtain ⟨d, _, n, rfl⟩ := exists_of_mem_lowerMethods a hm
  refine ⟨fun is pc hpath ↦ ?_, fun _ _ _ _ _ _ ↦ Method.path_of_steps⟩
  have hlt := (a.lowerer d).lt_length_of_path hpath
  obtain ⟨i, hi⟩ : ∃ i, ((a.lowerer d).method n).1.instrs[pc]? = some i :=
    ⟨_, List.getElem?_eq_getElem hlt⟩
  have hlabel := fun x ↦ (a.lowerer d).exists_labelTarget? (List.mem_of_getElem? hi) (x := x)
  refine ⟨hlt, i, hi, hlabel, ?_, fun hret ↦ Method.exists_follows hret hlabel⟩
  rintro ⟨pc', hfollows⟩ t v rfl
  exact Method.not_follows_ret hfollows

/-- The statement for `while (b) { return 1; } return 2; if (b) { } else { }`.  The last label leads
past the last instruction, and no path gets there. -/
theorem control_stops_at_returns_trailing :
    let b : Expr := .ident "b" {}
    let d : MethodDecl :=
      { name := "f", isPublic := true, isStatic := false, returns := { name := "int" },
        params := [{ name := "b", type := { name := "boolean" } }], locals := [],
        body := [.loop b [.ret (some (.int 1 {})) {}] {}, .ret (some (.int 2 {})) {},
          .cond b [] [] {}] }
    let cls : ClassDecl := { name := "A", superclass := none, fields := [], methods := [d] }
    ∃ m, m ∈ ((Analysis.ofClass [] cls).lower cls).methods ∧ m.instrs.length = 7
      ∧ m.labelTarget? "endif_0" = some 7
      ∧ (∃ is, m.Path is 4) ∧ ∀ is, ¬ m.Path is 7 := by
  intro b d cls
  let v : Operand := .var "b" .boolean
  let value (k : Int32) : Instr := .ret .int32 (some (.literal k .int32))
  let m : Method :=
    { name := "f", isPublic := true, params := [v], returns := .int32,
      instrs := [.branch (.single v) "whilebody_0", .goto "endwhile_0", value 1,
        .branch (.single v) "whilebody_0", value 2, .branch (.single v) "ifbody_0",
        .goto "endif_0"],
      labels := [("whilebody_0", 2), ("endwhile_0", 4), ("ifbody_0", 7), ("endif_0", 7)] }
  have hmethods : ((Analysis.ofClass [] cls).lower cls).methods = [m] := by decide +kernel
  have hm : m ∈ ((Analysis.ofClass [] cls).lower cls).methods := by
    rw [hmethods]
    exact List.mem_cons_self
  have hskip : m.Path [.branch (.single v) "whilebody_0", .goto "endwhile_0"] 4 :=
    .step (.step .start rfl (.inl ⟨rfl, rfl⟩)) rfl (.inr ⟨"endwhile_0", rfl, rfl⟩)
  refine ⟨m, hm, rfl, rfl, ⟨_, hskip⟩, fun is hpath ↦ ?_⟩
  exact Nat.lt_irrefl 7 ((control_stops_at_returns _ cls hm).1 is 7 hpath).1

end Jmm.Ollir
