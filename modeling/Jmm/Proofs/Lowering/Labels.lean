import Jmm.Proofs.Lowering.Placement

/-!
# Labels of lowered methods

Every statement draws the labels it needs, and these are new and different from each other, so that
no label is placed twice in a method (`Lowerer.labelsIn_code`) and its code stands where its labels
lead (`Lowerer.placed_method`).
-/

set_option autoImplicit false

namespace Jmm

/-- Induction over statements, with branches and bodies as lists. -/
@[elab_as_elim, induction_eliminator]
theorem Stmt.induct {P : Stmt → Prop} (assign : ∀ target value span, P (.assign target value span))
    (expr : ∀ e span, P (.expr e span)) (ret : ∀ value span, P (.ret value span))
    (cond : ∀ test thenBranch elseBranch span, (∀ st ∈ thenBranch, P st) →
      (∀ st ∈ elseBranch, P st) → P (.cond test thenBranch elseBranch span))
    (loop : ∀ test body span, (∀ st ∈ body, P st) → P (.loop test body span)) (st : Stmt) : P st :=
  @Stmt.rec P (fun sts ↦ ∀ st ∈ sts, P st) assign expr ret cond loop
    (fun _ h ↦ absurd h List.not_mem_nil)
    (fun _ _ hhead htail st h ↦ by
      rcases List.mem_cons.mp h with rfl | h
      · exact hhead
      · exact htail st h) st

namespace Stmt

mutual

/-- The expressions that stand in a statement. -/
def exprs : Stmt → List Expr
  | assign target value _ => [target, value]
  | expr e _ => [e]
  | ret value _ => value.toList
  | cond test thenBranch elseBranch _ => test :: (exprsAll thenBranch ++ exprsAll elseBranch)
  | loop test body _ => test :: exprsAll body

/-- The expressions that stand in statements. -/
def exprsAll : List Stmt → List Expr
  | [] => []
  | st :: sts => st.exprs ++ exprsAll sts

end

end Stmt

namespace Ollir

/-- The labels of code made between two states of the counters are new and different. -/
structure NewLabels (n n' : Names) (code : List Item) : Prop where
  le : n ≤ n'
  labels : LabelsIn n n' (labelsOf code)

variable {n m n' : Names} {a b : List Item}

namespace NewLabels

theorem nil (n : Names) : NewLabels n n [] := ⟨le_refl n, LabelsIn.nil n n⟩

theorem append (h : NewLabels n m a) (h' : NewLabels m n' b) : NewLabels n n' (a ++ b) := by
  refine ⟨h.le.trans h'.le, ?_⟩
  rw [labelsOf_append]
  exact h.labels.append h'.labels h.le h'.le

/-- Instructions without a label may follow. -/
theorem append_plain (h : NewLabels n n' a) (hb : labelsOf b = []) : NewLabels n n' (a ++ b) := by
  refine ⟨h.le, ?_⟩
  rw [labelsOf_append, hb, List.append_nil]
  exact h.labels

end NewLabels

theorem Draws.newLabels (h : Draws n n' a) : NewLabels n n' a := ⟨h.le, h.labels⟩

namespace Lowerer

variable (l : Lowerer)

/-! ## Statements -/

/-- The code of a conditional runs one of two branches. -/
theorem stmt_cond (test : Expr) (thenBranch elseBranch : List Stmt) (span : Span)
    (n : Names) :
    ∃ bodyLabel endLabel n₁ n₂ n₃,
      (l.stmt (.cond test thenBranch elseBranch span) n).1
        = (l.expr test .condition n₁).1.code
          ++ diamond (l.expr test .condition n₁).1.value bodyLabel endLabel
            (l.stmts elseBranch n₂).1 (l.stmts thenBranch n₃).1 := by
  refine ⟨NameKind.ifBody.name (n.count .ifBody),
    NameKind.endIf.name ((n.bump .ifBody).count .endIf), (n.bump .ifBody).bump .endIf,
    (l.expr test .condition ((n.bump .ifBody).bump .endIf)).2,
    (l.stmts elseBranch (l.expr test .condition ((n.bump .ifBody).bump .endIf)).2).2, ?_⟩
  rw [Lowerer.stmt]
  simp only [Draw.bind_apply, draw_apply, Draw.pure_apply, diamond, List.append_assoc,
    List.cons_append, List.nil_append]

/-- The code of a loop, with where its parts stand. -/
theorem stmt_loop (test : Expr) (body : List Stmt) (span : Span) (n : Names) :
    ∃ bodyLabel endLabel n₁,
      (l.stmt (.loop test body span) n).1
        = (l.expr test .condition n).1.code
          ++ .instr (.branch (l.expr test .condition n).1.value bodyLabel)
            :: .instr (.goto endLabel) :: .label bodyLabel :: ((l.stmts body n₁).1
              ++ [.instr (.branch (l.expr test .condition n).1.value bodyLabel),
                .label endLabel]) := by
  refine ⟨NameKind.whileBody.name ((l.expr test .condition n).2.count .whileBody),
    NameKind.endWhile.name (((l.expr test .condition n).2.bump .whileBody).count .endWhile),
    ((l.expr test .condition n).2.bump .whileBody).bump .endWhile, ?_⟩
  rw [Lowerer.stmt]
  simp only [Draw.bind_apply, draw_apply, Draw.pure_apply, List.append_assoc, List.cons_append,
    List.nil_append]

theorem newLabels_assign (target value : Expr) (n : Names) :
    NewLabels n (l.assign target value n).2 (l.assign target value n).1 := by
  cases target with
  | ident name span =>
    rw [Lowerer.assign]
    dsimp only
    split
    · exact ((l.expr_fresh value _).asOperand n).1.newLabels.append_plain rfl
    · exact (l.expr_fresh value _ n).1.newLabels.append_plain rfl
  | index array position span =>
    have harray := ((l.expr_fresh array .operand).asVar n).1
    have hposition := ((l.expr_fresh position .operand).asOperand
      (asVar (l.expr array .operand) n).2).1
    exact ((harray.append hposition).append (l.expr_fresh value _ _).1).newLabels.append_plain rfl
  | _ => exact (l.expr_fresh value .operand n).1.newLabels

theorem newLabels_exprStmt (e : Expr) (n : Names) :
    NewLabels n (l.exprStmt e n).2 (l.exprStmt e n).1 := by
  have hcode := (l.expr_fresh e .statement n).1.newLabels
  rw [Lowerer.exprStmt]
  simp only [Draw.bind_apply, Draw.pure_apply]
  split
  · exact hcode.append_plain rfl
  · exact hcode

theorem newLabels_ret (value : Option Expr) (n : Names) :
    NewLabels n (l.ret value n).2 (l.ret value n).1 := by
  cases value with
  | none => exact (NewLabels.nil n).append_plain rfl
  | some e => exact ((l.expr_fresh e .operand).asOperand n).1.newLabels.append_plain rfl

theorem newLabels_stmts {sts : List Stmt}
    (ih : ∀ st ∈ sts, ∀ n, NewLabels n (l.stmt st n).2 (l.stmt st n).1) (n : Names) :
    NewLabels n (l.stmts sts n).2 (l.stmts sts n).1 := by
  induction sts generalizing n with
  | nil => exact NewLabels.nil n
  | cons st sts ihs =>
    rw [Lowerer.stmts]
    exact (ih st List.mem_cons_self n).append
      (ihs (fun st' h ↦ ih st' (List.mem_cons_of_mem st h)) _)

/-- The labels of a statement are new and different. -/
theorem newLabels_stmt (st : Stmt) : ∀ n, NewLabels n (l.stmt st n).2 (l.stmt st n).1 := by
  induction st with
  | assign target value span => exact l.newLabels_assign target value
  | expr e span => exact l.newLabels_exprStmt e
  | ret value span => exact l.newLabels_ret value
  | cond test thenBranch elseBranch span iht ihe =>
    intro n
    rw [Lowerer.stmt]
    simp only [Draw.bind_apply, draw_apply, Draw.pure_apply]
    have hbody := LabelsIn.next (k := .ifBody) rfl n
    have hend := LabelsIn.next (k := .endIf) rfl (n.bump .ifBody)
    have hlabels := hbody.append hend (Names.le_bump _ _) (Names.le_bump _ _)
    have hle := (Names.le_bump n .ifBody).trans (Names.le_bump (n.bump .ifBody) .endIf)
    have htest := (l.expr_fresh test .condition ((n.bump .ifBody).bump .endIf)).1.newLabels
    have hcode := (htest.append (l.newLabels_stmts ihe _)).append (l.newLabels_stmts iht _)
    refine ⟨hle.trans hcode.le, (hlabels.append hcode.labels hle hcode.le).perm ?_⟩
    refine List.perm_iff_count.mpr fun x ↦ ?_
    simp only [labelsOf_append, labelsOf_instr, labelsOf_label, labelsOf_nil, List.count_append,
      List.count_cons, List.count_nil]
    omega
  | loop test body span ih =>
    intro n
    rw [Lowerer.stmt]
    simp only [Draw.bind_apply, draw_apply, Draw.pure_apply]
    have htest := (l.expr_fresh test .condition n).1.newLabels
    generalize l.expr test .condition n = first at *
    obtain ⟨v, n₁⟩ := first
    have hbody := LabelsIn.next (k := .whileBody) rfl n₁
    have hend := LabelsIn.next (k := .endWhile) rfl (n₁.bump .whileBody)
    have hlabels := hbody.append hend (Names.le_bump _ _) (Names.le_bump _ _)
    have hle := (Names.le_bump n₁ .whileBody).trans (Names.le_bump (n₁.bump .whileBody) .endWhile)
    have hcode := l.newLabels_stmts ih ((n₁.bump .whileBody).bump .endWhile)
    refine ⟨(htest.le.trans hle).trans hcode.le,
      (htest.labels.append (hlabels.append hcode.labels hle hcode.le) htest.le
        (hle.trans hcode.le)).perm ?_⟩
    refine List.perm_iff_count.mpr fun x ↦ ?_
    simp only [labelsOf_append, labelsOf_instr, labelsOf_label, labelsOf_nil, List.count_append,
      List.count_cons, List.count_nil]
    omega

/-! ## Methods -/

/-- The method before a body is added to it. -/
def start : Method :=
  { name := l.decl.name, isPublic := l.decl.isPublic, isStatic := l.decl.isStatic,
    params := l.params, returns := l.returnType }

/-- The code of the method: that of its body, and a return unless one stands at the top level. -/
def code (n : Names) : List Item :=
  (l.stmts l.decl.body n).1 ++ if l.decl.hasReturn then [] else [.instr (.ret .void none)]

/-- The method holds its code and nothing else. -/
theorem method_eq_extend (n : Names) : (l.method n).1 = l.start.extend (l.code n) := by
  rw [Lowerer.method, code]
  cases hreturn : l.decl.hasReturn with
  | true =>
    simp only [if_true, List.append_nil]
    rfl
  | false =>
    simp only [Bool.false_eq_true, if_false]
    rw [Method.extend, List.foldl_append]
    rfl

theorem labels_method (n : Names) : (l.method n).1.labels = positions 0 (l.code n) := by
  rw [method_eq_extend, Method.extend_eq]
  rfl

theorem instrs_method (n : Names) : (l.method n).1.instrs = instrsOf (l.code n) := by
  rw [method_eq_extend, Method.extend_eq]
  rfl

theorem params_method (n : Names) : (l.method n).1.params = l.params := by
  rw [method_eq_extend, Method.extend_eq]
  rfl

theorem returns_method (n : Names) : (l.method n).1.returns = l.returnType := by
  rw [method_eq_extend, Method.extend_eq]
  rfl

theorem isStatic_method (n : Names) : (l.method n).1.isStatic = l.decl.isStatic := by
  rw [method_eq_extend, Method.extend_eq]
  rfl

theorem isEmpty_vars_method (n : Names) : (l.method n).1.vars.isEmpty = true := by
  rw [method_eq_extend, Method.extend_eq]
  rfl

theorem labelsOf_code (n : Names) : labelsOf (l.code n) = labelsOf (l.stmts l.decl.body n).1 := by
  rw [code, labelsOf_append]
  cases l.decl.hasReturn <;> simp

/-- The labels of a method are all different, and all of them were drawn. -/
theorem labelsIn_code (n : Names) : ∃ n', LabelsIn n n' (labelsOf (l.code n)) := by
  rw [labelsOf_code]
  exact ⟨_, (l.newLabels_stmts (fun st _ ↦ l.newLabels_stmt st) n).labels⟩

/-- **The code of a method stands at its start**, with its labels leading to their places. -/
theorem placed_method (n : Names) : Placed (l.method n).1 0 (l.code n) := by
  obtain ⟨_, hlabels⟩ := l.labelsIn_code n
  rw [method_eq_extend]
  exact placed_extend rfl hlabels.1

end Lowerer
end Ollir

/-- The lowering of a method by an analysis of its class. -/
def Analysis.lowerer (a : Analysis) (d : MethodDecl) : Ollir.Lowerer := ⟨a.table, a.scopes, d⟩

namespace Ollir

theorem lowerMethods_getElem? (a : Analysis) {decls : List MethodDecl} {i : Nat} {d : MethodDecl}
    (h : decls[i]? = some d) (n : Names) :
    ∃ n', (lowerMethods a decls n).1[i]? = some ((a.lowerer d).method n').1 := by
  induction decls generalizing i n with
  | nil => exact nomatch h
  | cons first rest ih =>
    cases i with
    | zero =>
      obtain rfl := Option.some.inj h
      exact ⟨n, rfl⟩
    | succ i => exact ih h _

theorem exists_of_mem_lowerMethods (a : Analysis) {decls : List MethodDecl} {n : Names} {m : Method}
    (h : m ∈ (lowerMethods a decls n).1) :
    ∃ d ∈ decls, ∃ n', m = ((a.lowerer d).method n').1 := by
  induction decls generalizing n with
  | nil => exact absurd h List.not_mem_nil
  | cons first rest ih =>
    rcases List.mem_cons.mp h with rfl | h
    · exact ⟨first, List.mem_cons_self, n, rfl⟩
    · obtain ⟨d, hd, n', hm⟩ := ih h
      exact ⟨d, List.mem_cons_of_mem _ hd, n', hm⟩

end Ollir
end Jmm
