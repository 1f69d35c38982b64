import Jmm.Compile
import Jmm.Proofs.Lowering.Expressions
import Jmm.Proofs.Lowering.Labels

/-!
# Lowered statements do what the statements do

A structured execution of the body of a method is followed by its lowered code, which ends in the
same way with the same shared state and the same variables, but for the generated ones.

The induction is on the execution.  The test of a loop is written twice, before the body and after
it, so a loop is entered at either of its two tests (`Stmt.IsEntry`), and what is shown for a loop
is shown for both.  This needs a test that is nothing but a value: code that computes it would stand
before the loop only.
-/

set_option autoImplicit false

namespace Jmm

namespace Stmt

mutual

/-- The tests of the loops in a statement. -/
def loopTests : Stmt → List Expr
  | assign _ _ _ | expr _ _ | ret _ _ => []
  | cond _ thenBranch elseBranch _ => loopTestsAll thenBranch ++ loopTestsAll elseBranch
  | loop test body _ => test :: loopTestsAll body

/-- The tests of the loops in statements. -/
def loopTestsAll : List Stmt → List Expr
  | [] => []
  | st :: sts => st.loopTests ++ loopTestsAll sts

end

/-- The indices at which code for a statement, of a size and from an index on, is entered: its start
and, for a loop, the second test, which comes last. -/
def IsEntry (pc size q : Nat) : Stmt → Prop
  | loop _ _ _ => q = pc ∨ q + 1 = pc + size
  | _ => q = pc

theorem isEntry_start (pc size : Nat) (st : Stmt) : st.IsEntry pc size pc := by
  cases st with
  | loop => exact .inl rfl
  | _ => exact rfl

end Stmt

/-- The state of a method that has ended.  Without a return statement it returns nothing. -/
def Ending.finalState (env : Semantics.Env) (s : Semantics.Shared) : Ending → Ollir.State
  | normal => .returned none env s
  | returned v => .returned v env s
  | raised x => .raised x env s

namespace Ollir

open Semantics

/-! ## How runs end -/

/-- A run from a state ends in some way, at an index if it ends normally. -/
def Ends (c : Context) (m : Method) (st : State) (pc : Nat) (env : Env) (s : Shared) :
    Ending → Prop
  | .normal => ∃ env', m.Steps c st (.running pc env' s) ∧ AgreeOff IsGenerated env env'
  | .returned v => ∃ env', m.Steps c st (.returned v env' s) ∧ AgreeOff IsGenerated env env'
  | .raised x => ∃ env', m.Steps c st (.raised x env' s) ∧ AgreeOff IsGenerated env env'

variable {c : Context} {m : Method} {pc pc' : Nat} {env env₀ env₁ : Env} {s s' s₁ : Shared}
  {st st' : State} {r : Ending} {D : String → Prop}

namespace Ends

theorem of_steps (h : m.Steps c st st') (h' : Ends c m st' pc env s r) :
    Ends c m st pc env s r := by
  cases r with
  | _ =>
    obtain ⟨env', hsteps, hagree⟩ := h'
    exact ⟨env', h.trans hsteps, hagree⟩

/-- One piece of code after another that ends normally. -/
theorem next (h : Ends c m st pc env₁ s₁ .normal)
    (hnext : ∀ env', AgreeOff IsGenerated env₁ env' →
      Ends c m (.running pc env' s₁) pc' env s r) : Ends c m st pc' env s r := by
  obtain ⟨env', hsteps, hagree⟩ := h
  exact of_steps hsteps (hnext env' hagree)

/-- A jump after a normal end. -/
theorem goto (h : Ends c m st pc env s r) {label : String}
    (hi : m.instrs[pc]? = some (.goto label)) (htarget : m.labelTarget? label = some pc') :
    Ends c m st pc' env s r := by
  cases r with
  | normal =>
    obtain ⟨env', hsteps, hagree⟩ := h
    refine ⟨env', hsteps.tail ?_, hagree⟩
    rw [m.step_running hi, Instr.exec, Method.jump, htarget]
    rfl
  | _ => exact h

/-- What does not end normally does not depend on what follows. -/
theorem leave (h : Ends c m st pc env s r) (hr : r ≠ .normal) : Ends c m st pc' env s r := by
  cases r with
  | normal => exact absurd rfl hr
  | _ => exact h

end Ends

/-- A run from a state ends as the outcome of a computation of variables says. -/
def EndsLike (c : Context) (m : Method) (st : State) (pc : Nat) (env : Env) : Outcome Env → Prop
  | .ok env' s => Ends c m st pc env' s .normal
  | .raised x s => Ends c m st pc env s (.raised x)
  | .undefined => True

/-- A run that delivers something and leaves the variables of the program alone. -/
theorem Delivers.endsLike {α : Type} {Q : α → Env → Prop} {x : Eval α}
    (h : Delivers c m D pc (fun _ ↦ pc') Q env s (x s)) (hD : ∀ y, D y → IsGenerated y)
    (hagree : AgreeOff IsGenerated env₀ env) :
    EndsLike c m (.running pc env s) pc' env₀ ((x >>= fun _ ↦ pure env₀) s) := by
  rw [Eval.bind_apply]
  cases hx : x s with
  | ok a s' =>
    rw [hx] at h
    obtain ⟨env', hsteps, hagree', _⟩ := h
    exact ⟨env', hsteps, hagree.trans (hagree'.mono hD)⟩
  | raised e s' =>
    rw [hx] at h
    obtain ⟨env', hsteps, hagree'⟩ := h
    exact ⟨env', hsteps, hagree.trans (hagree'.mono hD)⟩
  | undefined => trivial

/-! ## Values that are dropped -/

/-- Whether computing a value has no effect at all. -/
def Instr.isQuiet : Instr → Bool
  | single o => o.isPlain
  | not o _ => o.isPlain
  | _ => false

theorem negate_quiet (v : Val) (s : Shared) :
    (∃ w, negate v s = .ok w s) ∨ negate v s = .undefined := by
  cases v with
  | int n =>
    by_cases hzero : n = 0
    · subst hzero
      exact .inl ⟨_, rfl⟩
    · by_cases hone : n = 1
      · subst hone
        exact .inl ⟨_, rfl⟩
      · refine .inr ?_
        have htruth : truth (.int n) = Eval.undefined := by
          rw [truth, if_neg hzero, if_neg hone]
        rw [negate, htruth]
        rfl
  | _ => exact .inr rfl

theorem Instr.value_quiet {i : Instr} (h : i.isQuiet = true) (c : Context) (env : Env)
    (s : Shared) : (∃ v, i.value c env s = .ok v s) ∨ i.value c env s = .undefined := by
  cases i with
  | single o =>
    rw [Instr.value]
    rcases Operand.eval_of_isPlain h c env with ⟨v, hv⟩ | hv
    · exact .inl ⟨v, by rw [hv]; rfl⟩
    · exact .inr (by rw [hv]; rfl)
  | not o t =>
    rw [Instr.value]
    rcases Operand.eval_of_isPlain h c env with ⟨v, hv⟩ | hv
    · rw [hv, pure_bind]
      exact negate_quiet v s
    · exact .inr (by rw [hv]; rfl)
  | _ => exact absurd h Bool.false_ne_true

/-- A value without effects need not be computed. -/
theorem Yields.quiet {value : Instr} {x : Eval Val}
    (h : Yields c m D pc pc' value env s (x s)) (hquiet : value.isQuiet = true) :
    Delivers c m D pc (fun _ ↦ pc') (fun _ _ ↦ True) env s (x s) := by
  cases hx : x s with
  | ok v s' =>
    rw [hx] at h
    obtain ⟨env', s₁, hsteps, hagree, hv⟩ := h
    rcases Instr.value_quiet hquiet c env' s₁ with ⟨w, hw⟩ | hw
    · rw [hw] at hv
      obtain ⟨_, rfl⟩ := Outcome.ok.inj hv
      exact ⟨env', hsteps, hagree, trivial⟩
    · rw [hw] at hv
      exact nomatch hv
  | raised e s' =>
    rw [hx] at h
    rcases h with h | ⟨env', s₁, _, _, hv⟩
    · exact h
    · rcases Instr.value_quiet hquiet c env' s₁ with ⟨w, hw⟩ | hw <;>
        · rw [hw] at hv
          exact nomatch hv
  | undefined => trivial

/-- An exception of a value is one of the instruction that computes it first. -/
theorem Yields.raises {value i : Instr} {e : Exn}
    (h : Yields c m D pc pc' value env s (.raised e s')) (hi : m.instrs[pc']? = some i)
    {f : Env → Val → Eval Next}
    (hexec : ∀ env', i.exec c m pc' env' = value.value c env' >>= f env') :
    ∃ env', m.Steps c (.running pc env s) (.raised e env' s') ∧ AgreeOff D env env' := by
  rcases h with h | ⟨env', s₁, hsteps, hagree, hv⟩
  · exact h
  · refine ⟨env', hsteps.tail ?_, hagree⟩
    rw [m.step_running hi, hexec, Eval.bind_of_raised hv]
    rfl

namespace Lowerer

variable (l : Lowerer)

/-! ## Single statements -/

theorem single_ident (name : String) (n : Names) : ∃ o, (l.ident name n).1.value = .single o := by
  rw [Lowerer.ident]
  split
  · exact ⟨_, rfl⟩
  · dsimp only
    split <;> exact ⟨_, rfl⟩

/-- As a statement, an expression is a call or has a value that may be dropped. -/
theorem statement_value (e : Expr) (n : Names) :
    (l.expr e .statement n).1.value.isCall = true
      ∨ (l.expr e .statement n).1.value.isQuiet = true := by
  have hsingle : ∀ e n, (∃ o, (l.expr e .statement n).1.value = .single o) →
      (l.expr e .statement n).1.value.isQuiet = true := by
    rintro e n ⟨o, ho⟩
    rw [ho]
    exact l.plainValue_expr e (fun t h ↦ Use.noConfusion h) n o ho
  induction e generalizing n with
  | paren inner span ih => exact ih n
  | call receiver method args span =>
    refine .inl ?_
    rw [l.expr_call, finishCall, if_pos rfl]
    rfl
  | newArray => exact .inl rfl
  | not operand span =>
    exact .inr (isPlain_asOperand (l.plainValue_expr operand fun t h ↦ Use.noConfusion h) n)
  | ident name span => exact .inr (hsingle _ n (l.single_ident name n))
  | arrayLit elements span =>
    refine .inr (hsingle _ n ?_)
    rw [Lowerer.expr, packed, Draw.bind_apply]
    split <;> exact ⟨_, rfl⟩
  | index array position span =>
    rcases l.expr_index (n := n) rfl rfl span .statement with ⟨⟨t, ht⟩, _⟩ | ⟨_, heq⟩
    · exact Use.noConfusion ht
    · exact .inr (hsingle _ n (by rw [heq]; exact ⟨_, rfl⟩))
  | binary op left right span =>
    refine .inr (hsingle _ n ?_)
    rw [l.expr_binary]
    cases op with
    | and | or => exact ⟨_, rfl⟩
    | _ =>
      -- an operation is stored, since a statement is no place for it
      have hinline : (!left.isBinary && !right.isBinary && Use.statement.isInline) = false :=
        Bool.and_false _
      rw [hinline]
      exact ⟨_, rfl⟩
  | length array span => exact .inr (hsingle _ n ⟨_, rfl⟩)
  | _ => exact .inr rfl

/-- What expressions have to satisfy for their code to be run: no variable has a generated name, and
no call goes to a method with a vararg parameter. -/
def Runnable (es : List Expr) : Prop :=
  ∀ e ∈ es, (∀ y ∈ l.site.vars e, ¬ IsGenerated y) ∧ l.site.noVarargCalls e = true

variable {l} {n : Names} {e : Expr} {span : Span}

theorem Runnable.mono {es es' : List Expr} (h : l.Runnable es') (hsub : es ⊆ es') : l.Runnable es :=
  fun e he ↦ h e (hsub he)

theorem Runnable.computes {es : List Expr} (h : l.Runnable es) (he : e ∈ es) (use : Use) :
    Computes c m env₀ (l.site.eval c env₀ e) (l.expr e use) :=
  l.computes_expr (h e he).1 (h e he).2 use

/-- The parts of an element that is assigned to. -/
theorem Runnable.element {array position value : Expr}
    (h : l.Runnable [.index array position span, value]) : l.Runnable [array, position, value] := by
  obtain ⟨hvars, hcalls⟩ := h _ List.mem_cons_self
  rw [Site.vars] at hvars
  rw [Site.noVarargCalls, Bool.and_eq_true] at hcalls
  intro e he
  simp only [List.mem_cons, List.not_mem_nil, or_false] at he
  rcases he with rfl | rfl | rfl
  · exact ⟨fun y hy ↦ hvars y (List.mem_append_left _ hy), hcalls.1⟩
  · exact ⟨fun y hy ↦ hvars y (List.mem_append_right _ hy), hcalls.2⟩
  · exact h e (by simp)

/-- An expression as a statement. -/
theorem delivers_exprStmt (h : l.Runnable [e]) (hagree : AgreeOff IsGenerated env₀ env)
    (hplaced : Placed m pc (l.exprStmt e n).1) :
    Delivers c m (n.NewVar (l.exprStmt e n).2) pc (fun _ ↦ pc + codeSize (l.exprStmt e n).1)
      (fun _ _ ↦ True) env s (l.site.eval c env₀ e s) := by
  have hvalue := h.computes (c := c) (m := m) List.mem_cons_self .statement n pc env s hagree
  have hkind := l.statement_value e n
  rw [Lowerer.exprStmt] at hplaced ⊢
  simp only [Draw.bind_apply, Draw.pure_apply] at hplaced ⊢
  generalize l.expr e .statement n = r at *
  obtain ⟨⟨code, value⟩, n'⟩ := r
  by_cases hcall : value.isCall = true
  · simp only [hcall, if_true] at hplaced ⊢
    rw [placed_append] at hplaced
    rw [codeSize_append, ← Nat.add_assoc, ← bind_pure (l.site.eval c env₀ e)]
    refine (hvalue hplaced.1).instr hplaced.2.1 (fun _ env' ↦ env') (fun env' _ ↦ ?_)
      (fun _ hy ↦ hy) (fun _ env' ↦ AgreeOff.refl _ env') (fun _ _ _ ↦ trivial)
    cases value with
    | call k => simp only [Instr.exec, pure_bind]; rfl
    | _ => exact absurd hcall Bool.false_ne_true
  · simp only [hcall, Bool.false_eq_true, if_false] at hplaced ⊢
    exact (hvalue hplaced).quiet (hkind.resolve_left hcall)

theorem delivers_assign_element {array position value : Expr}
    (h : l.Runnable [array, position, value])
    (hagree : AgreeOff IsGenerated env₀ env)
    (hplaced : Placed m pc (l.assign (.index array position span) value n).1) :
    Delivers c m (n.NewVar (l.assign (.index array position span) value n).2) pc
      (fun _ ↦ pc + codeSize (l.assign (.index array position span) value n).1) (fun _ _ ↦ True)
      env s
      ((do
        let a ← l.site.eval c env₀ array
        let i ← l.site.eval c env₀ position
        let v ← l.site.eval c env₀ value
        arrayStore a i v : Eval Unit) s) := by
  obtain ⟨hle₁, hreads₁⟩ := (l.expr_fresh array .operand).asVar n
  rcases h₁ : asVar (l.expr array .operand) n with ⟨⟨code₁, name, t⟩, n₁⟩
  obtain ⟨hle₂, hreads₂⟩ := (l.expr_fresh position .operand).asOperand n₁
  rcases h₂ : asOperand (l.expr position .operand) n₁ with ⟨⟨code₂, index⟩, n₂⟩
  rw [h₁] at hle₁ hreads₁
  rw [h₂] at hle₂ hreads₂
  have hle₃ := (l.expr_fresh value (.assign t.elementOrInt) n₂).1.le
  have hcomputes : Computes c m env₀ (l.site.eval c env₀ value)
      (l.expr value (.assign t.elementOrInt)) := h.computes (by simp) _
  have hvalue := fun env' s' hagree' ↦ hcomputes n₂ (pc + codeSize (code₁ ++ code₂)) env' s' hagree'
  rw [Lowerer.assign] at hplaced ⊢
  simp only [Draw.bind_apply, Draw.pure_apply, h₁, h₂] at hplaced ⊢
  generalize l.expr value (.assign t.elementOrInt) n₂ = r at *
  obtain ⟨⟨code₃, v⟩, n₃⟩ := r
  rw [placed_append, placed_append] at hplaced
  obtain ⟨⟨hplaced₁, hplaced₂⟩, hi, _⟩ := hplaced
  have hspec : (do
        let a ← l.site.eval c env₀ array
        let i ← l.site.eval c env₀ position
        let v ← l.site.eval c env₀ value
        arrayStore a i v : Eval Unit)
      = (l.site.eval c env₀ array >>= fun a ↦ l.site.eval c env₀ position >>= fun i ↦ pure (a, i))
        >>= fun p ↦ l.site.eval c env₀ value >>= fun v ↦ arrayStore p.1 p.2 v := by
    simp only [bind_assoc, pure_bind]
  rw [hspec, codeSize_append, codeSize_append (code₁ ++ code₂), ← Nat.add_assoc, ← Nat.add_assoc]
  rw [codeSize_append (code₁ ++ code₂), ← Nat.add_assoc] at hi
  refine (l.delivers_element h₁ h₂ (h.computes (by simp)) (h.computes (by simp))
    (h array (by simp)).1 hagree hplaced₁).bind
    (fun y hy ↦ hy.mono (le_refl n) hle₃) (fun y (hy : n₂.NewVar n₃ y) ↦
      hy.mono (hle₁.le.trans hle₂.le) (le_refl _)) ?_
  rintro ⟨a, i⟩ env₁ s₁ hagree₁ ⟨hname, hindex⟩
  refine (hvalue env₁ s₁ (hagree.newVar hagree₁) hplaced₂).instr hi (fun _ env' ↦ env')
    (fun env' hagree' ↦ ?_) (fun _ hy ↦ hy) (fun _ env' ↦ AgreeOff.refl _ env')
    (fun _ _ _ ↦ trivial)
  -- the code of the value changes neither the array nor the position
  have hname' : env' name = a := (hreads₁.agree (h array (by simp)).1 hle₂.le hagree' name
    List.mem_cons_self).trans hname
  have hindex' : index.eval c env' = pure i := by
    rw [Operand.eval_congr (hreads₂.agree (h position (by simp)).1 (le_refl _) hagree')]
    exact hindex
  simp only [Instr.exec, hindex', hname', pure_bind]
  rfl

theorem delivers_assign_field {name : String} {value : Expr} (h : l.Runnable [value])
    (hfield : l.scopes.isField name l.decl.name = true) (hagree : AgreeOff IsGenerated env₀ env)
    (hplaced : Placed m pc (l.assign (.ident name span) value n).1) :
    Delivers c m (n.NewVar (l.assign (.ident name span) value n).2) pc
      (fun _ ↦ pc + codeSize (l.assign (.ident name span) value n).1) (fun _ _ ↦ True) env s
      ((l.site.eval c env₀ value >>= fun v ↦ putField c.self name v) s) := by
  rw [Lowerer.assign] at hplaced ⊢
  simp only [hfield, if_true, Draw.bind_apply, Draw.pure_apply, placed_append] at hplaced ⊢
  have hvalue := (h.computes (c := c) List.mem_cons_self _).asOperand (s := s)
    (l.plainValue_expr value fun t h ↦ Use.noConfusion h) (l.expr_fresh value _) hagree hplaced.1
  rw [codeSize_append, ← Nat.add_assoc]
  refine hvalue.bind (fun _ hy ↦ hy) (fun _ hy ↦ hy) fun v env₁ s₁ _ hv ↦ ?_
  refine Delivers.instr hplaced.2.1 (fun _ ↦ env₁) ?_ (fun _ ↦ AgreeOff.refl _ env₁)
    (fun _ ↦ trivial)
  simp only [Instr.exec, Lowerer.receiver, Operand.eval, hv, pure_bind]
  rfl

theorem endsLike_assign_var {name : String} {value : Expr} (h : l.Runnable [value])
    (hfield : l.scopes.isField name l.decl.name = false) (hagree : AgreeOff IsGenerated env₀ env)
    (hplaced : Placed m pc (l.assign (.ident name span) value n).1) :
    EndsLike c m (.running pc env s) (pc + codeSize (l.assign (.ident name span) value n).1) env₀
      ((l.site.eval c env₀ value >>= fun v ↦ pure (env₀.set name v)) s) := by
  rw [Lowerer.assign] at hplaced ⊢
  simp only [hfield, Bool.false_eq_true, if_false, Draw.bind_apply, Draw.pure_apply, placed_append,
    codeSize_append, ← Nat.add_assoc] at hplaced ⊢
  obtain ⟨hplacedCode, hi, _⟩ := hplaced
  have hvalue := h.computes (c := c) List.mem_cons_self _ n pc env s hagree hplacedCode
  rw [Eval.bind_apply]
  cases hv : l.site.eval c env₀ value s with
  | ok v s' =>
    have hassign := hvalue.assign (D := fun y ↦ IsGenerated y ∨ y = name) hi
      (fun y hy ↦ .inl hy.isGenerated) (.inr rfl)
    rw [hv] at hassign
    obtain ⟨env', hsteps, hagree', hname⟩ := hassign
    refine ⟨env', hsteps, fun y hy ↦ ?_⟩
    by_cases heq : y = name
    · rw [heq, Env.set_same]
      exact hname
    · rw [Env.set_of_ne _ _ heq, hagree' y (not_or.mpr ⟨hy, heq⟩)]
      exact hagree y hy
  | raised x s' =>
    rw [hv] at hvalue
    obtain ⟨env', hsteps, hagree'⟩ := hvalue.raises hi fun env' ↦ rfl
    exact ⟨env', hsteps, hagree.newVar hagree'⟩
  | undefined => trivial

/-- An assignment. -/
theorem endsLike_assign {target value : Expr} (h : l.Runnable [target, value])
    (hagree : AgreeOff IsGenerated env₀ env) (hplaced : Placed m pc (l.assign target value n).1) :
    EndsLike c m (.running pc env s) (pc + codeSize (l.assign target value n).1) env₀
      (l.site.assign c env₀ target value s) := by
  have hvalue : l.Runnable [value] := h.mono (by simp)
  cases target with
  | ident name span =>
    by_cases himport : l.table.isImport name = true
    · have hspec : l.site.assign c env₀ (.ident name span) value = Eval.undefined := by
        rw [Site.assign, site_table, if_pos himport]
      rw [hspec]
      trivial
    · cases hlookup : l.scopes.lookup name l.decl.name with
      | none =>
        have hspec : l.site.assign c env₀ (.ident name span) value = Eval.undefined := by
          rw [Site.assign, site_table, if_neg himport, site_scopes, site_method, hlookup]
        rw [hspec]
        trivial
      | some entry =>
        have hspec : l.site.assign c env₀ (.ident name span) value
            = l.site.eval c env₀ value >>= fun v ↦
              if entry.kind = .field then do putField c.self name v; return env₀
              else pure (env₀.set name v) := by
          rw [Site.assign, site_table, if_neg himport, site_scopes, site_method, hlookup]
        have hfield : l.scopes.isField name l.decl.name = decide (entry.kind = .field) := by
          rw [Scopes.isField, hlookup]
          rfl
        rw [hspec]
        by_cases hkind : entry.kind = .field
        · simp only [hkind, if_true]
          rw [← bind_assoc]
          exact (delivers_assign_field hvalue (by simp [hfield, hkind]) hagree hplaced).endsLike
            (fun _ hy ↦ hy.isGenerated) hagree
        · simp only [hkind, if_false]
          exact endsLike_assign_var hvalue (by simp [hfield, hkind]) hagree hplaced
  | index array position span =>
    have hspec : l.site.assign c env₀ (.index array position span) value
        = (do
          let a ← l.site.eval c env₀ array
          let i ← l.site.eval c env₀ position
          let v ← l.site.eval c env₀ value
          arrayStore a i v) >>= fun _ ↦ pure env₀ := by
      simp only [Site.assign, bind_assoc]
    rw [hspec]
    exact (delivers_assign_element h.element hagree hplaced).endsLike (fun _ hy ↦ hy.isGenerated)
      hagree
  | _ => trivial

/-- A returned value as an operand. -/
theorem delivers_ret (h : l.Runnable [e]) (hagree : AgreeOff IsGenerated env₀ env)
    (hplaced : Placed m pc (l.ret (some e) n).1) :
    ∃ p o, m.instrs[p]? = some (.ret l.returnType (some o))
      ∧ Delivers c m IsGenerated pc (fun _ ↦ p) (fun v env' ↦ o.eval c env' = pure v) env s
        (l.site.eval c env₀ e s) := by
  rw [Lowerer.ret] at hplaced
  simp only [Draw.bind_apply, Draw.pure_apply, placed_append] at hplaced
  refine ⟨_, _, hplaced.2.1, ?_⟩
  exact ((h.computes List.mem_cons_self .operand).asOperand
    (l.plainValue_expr e fun t h ↦ Use.noConfusion h) (l.expr_fresh e _) hagree hplaced.1).mono
    (fun _ hy ↦ hy.isGenerated) fun _ _ _ hv ↦ hv

/-! ## Conditionals and loops -/

/-- The tests of loops are nothing but values. -/
def InlineTests (l : Lowerer) (es : List Expr) : Prop :=
  ∀ e ∈ es, ∀ n, (l.expr e .condition n).1.code = []

theorem InlineTests.mono {es es' : List Expr} (h : l.InlineTests es') (hsub : es ⊆ es') :
    l.InlineTests es :=
  fun e he ↦ h e (hsub he)

/-- The lowered code follows an execution, from each of its entries. -/
def Follows (l : Lowerer) (c : Context) (m : Method) :
    Code → Env → Shared → Ending → Env → Shared → Prop
  | .stmt st, env₀, s, r, env₀', s' => ∀ n pc q env, l.Runnable st.exprs →
      l.InlineTests st.loopTests → AgreeOff IsGenerated env₀ env → Placed m pc (l.stmt st n).1 →
      st.IsEntry pc (codeSize (l.stmt st n).1) q →
      Ends c m (.running q env s) (pc + codeSize (l.stmt st n).1) env₀' s' r
  | .block sts, env₀, s, r, env₀', s' => ∀ n pc env, l.Runnable (Stmt.exprsAll sts) →
      l.InlineTests (Stmt.loopTestsAll sts) → AgreeOff IsGenerated env₀ env →
      Placed m pc (l.stmts sts n).1 →
      Ends c m (.running pc env s) (pc + codeSize (l.stmts sts n).1) env₀' s' r

theorem follows_cond {test : Expr} {thenBranch elseBranch : List Stmt} {b : Bool} {env₀' : Env}
    (htest : l.site.test c env₀ test s = .ok b s₁)
    (ih : Follows l c m (.block (if b then thenBranch else elseBranch)) env₀ s₁ r env₀' s') :
    Follows l c m (.stmt (.cond test thenBranch elseBranch span)) env₀ s r env₀' s' := by
  intro n pc q env hrun htests hagree hplaced hentry
  obtain rfl : q = pc := hentry
  obtain ⟨bodyLabel, endLabel, n₁, n₂, n₃, hcode⟩ :=
    l.stmt_cond test thenBranch elseBranch span n
  rw [hcode, placed_append] at hplaced
  rw [hcode, codeSize_append, codeSize_diamond]
  have hparts := placedDiamond_of_placed hplaced.2
  have hbranch := (hrun.computes (c := c) List.mem_cons_self .condition n₁ q env s hagree
    hplaced.1).branch hparts.hbranch hparts.hlabel
  rw [show (l.site.eval c env₀ test >>= truth) s = .ok b s₁ from htest] at hbranch
  obtain ⟨env', hsteps, hagree', _⟩ := hbranch
  refine Ends.of_steps hsteps ?_
  have hagree₁ := hagree.newVar hagree'
  rw [Stmt.exprs] at hrun
  rw [Stmt.loopTests] at htests
  simp only [← Nat.add_assoc]
  cases b with
  | true =>
    rw [if_pos rfl] at ih
    exact ih n₃ _ env' (hrun.mono (by simp)) (htests.mono (by simp)) hagree₁ hparts.htrue
  | false =>
    rw [if_neg Bool.false_ne_true] at ih
    exact (ih n₂ _ env' (hrun.mono (by simp)) (htests.mono (by simp)) hagree₁ hparts.hfalse).goto
      hparts.hgoto hparts.hend

theorem follows_condRaised {test : Expr} {thenBranch elseBranch : List Stmt} {x : Exn}
    (htest : l.site.test c env₀ test s = .raised x s') :
    Follows l c m (.stmt (.cond test thenBranch elseBranch span)) env₀ s (.raised x) env₀ s' := by
  intro n pc q env hrun htests hagree hplaced hentry
  obtain rfl : q = pc := hentry
  obtain ⟨bodyLabel, endLabel, n₁, n₂, n₃, hcode⟩ :=
    l.stmt_cond test thenBranch elseBranch span n
  rw [hcode, placed_append] at hplaced
  have hparts := placedDiamond_of_placed hplaced.2
  have hbranch := (hrun.computes (c := c) List.mem_cons_self .condition n₁ q env s hagree
    hplaced.1).branch hparts.hbranch hparts.hlabel
  rw [show (l.site.eval c env₀ test >>= truth) s = .raised x s' from htest] at hbranch
  obtain ⟨env', hsteps, hagree'⟩ := hbranch
  exact ⟨env', hsteps, hagree.newVar hagree'⟩

/-- A test of a loop, from either of its two places. -/
theorem delivers_loopTest {test : Expr} {body : List Stmt} {q : Nat}
    (hrun : l.Runnable [test]) (hinline : ∀ n, (l.expr test .condition n).1.code = [])
    (hagree : AgreeOff IsGenerated env₀ env)
    (hplaced : Placed m pc (l.stmt (.loop test body span) n).1)
    (hentry : q = pc ∨ q + 1 = pc + codeSize (l.stmt (.loop test body span) n).1) :
    ∃ n₁, Placed m (pc + 2) (l.stmts body n₁).1
      ∧ pc + 2 + codeSize (l.stmts body n₁).1 + 1
        = pc + codeSize (l.stmt (.loop test body span) n).1
      ∧ Delivers c m IsGenerated q
        (fun b ↦ if b then pc + 2 else pc + codeSize (l.stmt (.loop test body span) n).1)
        (fun _ _ ↦ True) env s (l.site.test c env₀ test s) := by
  obtain ⟨bodyLabel, endLabel, n₁, hcode⟩ := l.stmt_loop test body span n
  have hvalue := hrun.computes (c := c) (m := m) List.mem_cons_self .condition n q env s hagree
  simp only [hcode, hinline, List.nil_append, placed_instr, placed_label, placed_append, placed_nil,
    codeSize_instr, codeSize_label, codeSize_append, codeSize_nil, and_true]
    at hplaced hentry hvalue ⊢
  obtain ⟨hfirst, hgoto, hbody, hplacedBody, hsecond, hend⟩ := hplaced
  have hlast : pc + (codeSize (l.stmts body n₁).1 + (0 + 1) + 1 + 1)
      = pc + 1 + 1 + codeSize (l.stmts body n₁).1 + 1 := by omega
  rw [hlast] at hentry ⊢
  refine ⟨n₁, hplacedBody, rfl, ?_⟩
  have hgenerated : ∀ y, n.NewVar (l.expr test .condition n).2 y → IsGenerated y :=
    fun _ hy ↦ hy.isGenerated
  rcases hentry with rfl | hentry
  · rw [← bind_pure (l.site.test c env₀ test)]
    refine ((hvalue trivial).branch hfirst hbody).bind hgenerated (fun _ hy ↦ hy) ?_
    intro b env' s' _ _
    cases b with
    | true => exact Delivers.of_pure rfl trivial
    | false =>
      -- the first test is followed by a jump to the end
      have hjump : Delivers c m IsGenerated (q + 1) (fun _ ↦ q + 1) (fun _ _ ↦ True) env' s'
          ((pure false : Eval Bool) s') := Delivers.of_pure rfl trivial
      exact hjump.goto hgoto hend
  · obtain rfl := Nat.succ.inj hentry
    exact ((hvalue trivial).branch hsecond hbody).mono hgenerated fun _ _ _ h ↦ h

theorem follows_loopDone {test : Expr} {body : List Stmt}
    (htest : l.site.test c env₀ test s = .ok false s') :
    Follows l c m (.stmt (.loop test body span)) env₀ s .normal env₀ s' := by
  intro n pc q env hrun htests hagree hplaced hentry
  obtain ⟨n₁, _, _, hdelivers⟩ := delivers_loopTest (c := c) (s := s)
    (hrun.mono (by simp [Stmt.exprs])) (htests test (by simp [Stmt.loopTests])) hagree hplaced
    hentry
  rw [htest] at hdelivers
  obtain ⟨env', hsteps, hagree', _⟩ := hdelivers
  exact ⟨env', hsteps, hagree.trans hagree'⟩

theorem follows_loopRaised {test : Expr} {body : List Stmt} {x : Exn}
    (htest : l.site.test c env₀ test s = .raised x s') :
    Follows l c m (.stmt (.loop test body span)) env₀ s (.raised x) env₀ s' := by
  intro n pc q env hrun htests hagree hplaced hentry
  obtain ⟨n₁, _, _, hdelivers⟩ := delivers_loopTest (c := c) (s := s)
    (hrun.mono (by simp [Stmt.exprs])) (htests test (by simp [Stmt.loopTests])) hagree hplaced
    hentry
  rw [htest] at hdelivers
  obtain ⟨env', hsteps, hagree'⟩ := hdelivers
  exact ⟨env', hsteps, hagree.trans hagree'⟩

/-- The body of a loop whose test holds. -/
theorem ends_loopBody {test : Expr} {body : List Stmt} {q : Nat} {env₀' : Env}
    (htest : l.site.test c env₀ test s = .ok true s₁)
    (ih : Follows l c m (.block body) env₀ s₁ r env₀' s')
    (hrun : l.Runnable (Stmt.loop test body span).exprs)
    (htests : l.InlineTests (Stmt.loop test body span).loopTests)
    (hagree : AgreeOff IsGenerated env₀ env)
    (hplaced : Placed m pc (l.stmt (.loop test body span) n).1)
    (hentry : (Stmt.loop test body span).IsEntry pc
      (codeSize (l.stmt (.loop test body span) n).1) q) :
    ∃ p, p + 1 = pc + codeSize (l.stmt (.loop test body span) n).1
      ∧ Ends c m (.running q env s) p env₀' s' r := by
  rw [Stmt.exprs] at hrun
  rw [Stmt.loopTests] at htests
  obtain ⟨n₁, hplacedBody, hlast, hdelivers⟩ := delivers_loopTest (c := c) (s := s)
    (hrun.mono (by simp)) (htests test (by simp)) hagree hplaced hentry
  rw [htest] at hdelivers
  obtain ⟨env', hsteps, hagree', _⟩ := hdelivers
  exact ⟨_, hlast, Ends.of_steps hsteps (ih n₁ _ env' (hrun.mono (by simp)) (htests.mono (by simp))
    (hagree.trans hagree') hplacedBody)⟩

/-! ## All statements -/

theorem follows_assign {target value : Expr} {x : Outcome Env}
    (h : l.site.assign c env₀ target value s = x) (hr : ∀ {st pc}, EndsLike c m st pc env₀ x →
      Ends c m st pc env₁ s' r) :
    Follows l c m (.stmt (.assign target value span)) env₀ s r env₁ s' := by
  intro n pc q env hrun _ hagree hplaced hentry
  obtain rfl : q = pc := hentry
  exact hr (h ▸ endsLike_assign hrun hagree hplaced)

theorem follows_retNone :
    Follows l c m (.stmt (.ret none span)) env₀ s (.returned none) env₀ s := by
  intro n pc q env _ _ hagree hplaced hentry
  obtain rfl : q = pc := hentry
  refine ⟨env, Relation.ReflTransGen.single ?_, hagree⟩
  rw [m.step_running hplaced.1]
  rfl

theorem follows_ret {v : Val} (h : l.site.eval c env₀ e s = .ok v s') :
    Follows l c m (.stmt (.ret (some e) span)) env₀ s (.returned (some v)) env₀ s' := by
  intro n pc q env hrun _ hagree hplaced hentry
  obtain rfl : q = pc := hentry
  obtain ⟨p, o, hi, hdelivers⟩ := delivers_ret (c := c) (s := s) hrun hagree hplaced
  rw [h] at hdelivers
  obtain ⟨env', hsteps, hagree', ho⟩ := hdelivers
  refine ⟨env', hsteps.tail ?_, hagree.trans hagree'⟩
  rw [m.step_running hi, Instr.exec, ho]
  rfl

theorem follows_retRaised {x : Exn} (h : l.site.eval c env₀ e s = .raised x s') :
    Follows l c m (.stmt (.ret (some e) span)) env₀ s (.raised x) env₀ s' := by
  intro n pc q env hrun _ hagree hplaced hentry
  obtain rfl : q = pc := hentry
  obtain ⟨p, o, _, hdelivers⟩ := delivers_ret (c := c) (s := s) hrun hagree hplaced
  rw [h] at hdelivers
  obtain ⟨env', hsteps, hagree'⟩ := hdelivers
  exact ⟨env', hsteps, hagree.trans hagree'⟩

theorem follows_expr {x : Outcome Env}
    (h : (l.site.eval c env₀ e >>= fun _ ↦ pure env₀) s = x)
    (hr : ∀ {st pc}, EndsLike c m st pc env₀ x → Ends c m st pc env₀ s' r) :
    Follows l c m (.stmt (.expr e span)) env₀ s r env₀ s' := by
  intro n pc q env hrun _ hagree hplaced hentry
  obtain rfl : q = pc := hentry
  exact hr (h ▸ (delivers_exprStmt hrun hagree hplaced).endsLike (fun _ hy ↦ hy.isGenerated) hagree)

/-- **Lowered code follows every execution.** -/
theorem follows_of_exec {code : Code} {env₀' : Env}
    (h : Exec l.site c code env₀ s r env₀' s') : Follows l c m code env₀ s r env₀' s' := by
  induction h with
  | assign h => exact follows_assign h fun h ↦ h
  | assignRaised h => exact follows_assign h fun h ↦ h
  | expr h => exact follows_expr (Eval.bind_of_ok h _) fun h ↦ h
  | exprRaised h => exact follows_expr (Eval.bind_of_raised h _) fun h ↦ h
  | retNone => exact follows_retNone
  | ret h => exact follows_ret h
  | retRaised h => exact follows_retRaised h
  | cond h _ ih => exact follows_cond h ih
  | condRaised h => exact follows_condRaised h
  | loopDone h => exact follows_loopDone h
  | loopRaised h => exact follows_loopRaised h
  | loopNext h _ _ ihb ihr =>
    intro n pc q env hrun htests hagree hplaced hentry
    obtain ⟨p, hp, hends⟩ := ends_loopBody h ihb hrun htests hagree hplaced hentry
    exact hends.next fun env' hagree' ↦ ihr n pc p env' hrun htests hagree' hplaced (.inr hp)
  | loopLeft h _ hne ihb =>
    intro n pc q env hrun htests hagree hplaced hentry
    obtain ⟨p, hp, hends⟩ := ends_loopBody h ihb hrun htests hagree hplaced hentry
    exact hends.leave hne
  | nil => exact fun n pc env _ _ hagree _ ↦ ⟨env, .refl, hagree⟩
  | cons _ _ ih ihr =>
    intro n pc env hrun htests hagree hplaced
    rw [Stmt.exprsAll] at hrun
    rw [Stmt.loopTestsAll] at htests
    rw [Lowerer.stmts] at hplaced ⊢
    simp only [Draw.bind_apply, Draw.pure_apply, placed_append, codeSize_append,
      ← Nat.add_assoc] at hplaced ⊢
    refine (ih n pc pc env (hrun.mono (by simp)) (htests.mono (by simp)) hagree hplaced.1
      (Stmt.isEntry_start _ _ _)).next fun env' hagree' ↦ ?_
    exact ihr _ _ env' (hrun.mono (by simp)) (htests.mono (by simp)) hagree' hplaced.2
  | consLeft _ hne ih =>
    intro n pc env hrun htests hagree hplaced
    rw [Stmt.exprsAll] at hrun
    rw [Stmt.loopTestsAll] at htests
    rw [Lowerer.stmts] at hplaced
    simp only [Draw.bind_apply, Draw.pure_apply, placed_append] at hplaced
    exact (ih n pc pc env (hrun.mono (by simp)) (htests.mono (by simp)) hagree hplaced.1
      (Stmt.isEntry_start _ _ _)).leave hne

/-! ## Methods -/

/-- Statements that end normally have no return statement among them. -/
theorem any_isReturn_of_exec {site : Site} {sts : List Stmt} {env' : Env}
    (h : Exec site c (.block sts) env s .normal env' s') : sts.any Stmt.isReturn = false := by
  induction sts generalizing env s with
  | nil => rfl
  | cons st sts ih =>
    cases h with
    | cons h hr =>
      rw [List.any_cons, ih hr, Bool.or_false]
      cases h <;> rfl
    | consLeft _ hne => exact absurd rfl hne

theorem method_follows {env' : Env} (n : Names) (hrun : l.Runnable (Stmt.exprsAll l.decl.body))
    (htests : l.InlineTests (Stmt.loopTestsAll l.decl.body))
    (h : Exec l.site c (.block l.decl.body) env s r env' s') :
    ∃ env'', (l.method n).1.Steps c (.running 0 env s) (r.finalState env'' s')
      ∧ AgreeOff IsGenerated env' env'' := by
  obtain ⟨hplaced, hlast⟩ := placed_append.mp (l.placed_method n)
  have hends := follows_of_exec (m := (l.method n).1) h n 0 env hrun htests (AgreeOff.refl _ env)
    hplaced
  cases r with
  | normal =>
    obtain ⟨env'', hsteps, hagree⟩ := hends
    refine ⟨env'', hsteps.tail ?_, hagree⟩
    -- the return that the method has at its end
    have hreturn : l.decl.hasReturn = false := any_isReturn_of_exec h
    rw [hreturn] at hlast
    rw [Method.step_running hlast.1]
    rfl
  | _ => exact hends

end Lowerer

/-- **Lowering preserves the meaning of methods.**  If the body of a method, run from any variables
and any shared state, ends normally, by a return or by an exception, then the lowered method, run
from its first instruction, ends in the same way, with the same value or exception, the same shared
state, and the same variables but for the generated ones. -/
theorem lower_preserves_execution (a : Analysis) {cls : ClassDecl} {i : Nat} {d : MethodDecl}
    (hd : cls.methods[i]? = some d) (hrun : (a.lowerer d).Runnable (Stmt.exprsAll d.body))
    (htests : (a.lowerer d).InlineTests (Stmt.loopTestsAll d.body)) {c : Context} {env env' : Env}
    {s s' : Shared} {r : Ending}
    (h : Exec (a.lowerer d).site c (.block d.body) env s r env' s') :
    ∃ m, (a.lower cls).methods[i]? = some m
      ∧ ∃ env'', m.Steps c (.running 0 env s) (r.finalState env'' s')
        ∧ AgreeOff IsGenerated env' env'' := by
  obtain ⟨n, hm⟩ := lowerMethods_getElem? a hd {}
  exact ⟨_, hm, Lowerer.method_follows n hrun htests h⟩

/-- The statement for `while (x < 3) x = x + 1; return x;`, run from two. -/
theorem lower_preserves_execution_loop :
    let x : Expr := .ident "x" {}
    let int : TypeName := { name := "int" }
    let d : MethodDecl :=
      { name := "count", isPublic := true, isStatic := false, returns := int,
        params := [{ name := "x", type := int }], locals := [],
        body := [.loop (.binary .less x (.int 3 {}) {})
          [.assign x (.binary .add x (.int 1 {}) {}) {}] {}, .ret (some x) {}] }
    let cls : ClassDecl := { name := "A", superclass := none, fields := [], methods := [d] }
    let c : Context := ⟨fun _ h ↦ (.ok .null, h), id, .ref 0⟩
    let env : Env := fun _ ↦ .int 2
    ∃ m, ((Analysis.ofClass [] cls).lower cls).methods[0]? = some m
      ∧ ∃ env'', m.Steps c (.running 0 env default) (.returned (some (.int 3)) env'' default)
        ∧ AgreeOff IsGenerated (env.set "x" (.int 3)) env'' := by
  intro x int d cls c env
  have hx : ¬ IsGenerated "x" := fun h ↦ absurd h.head? (by decide)
  have hvars : ∀ e ∈ Stmt.exprsAll d.body, ∀ y ∈ ((Analysis.ofClass [] cls).lowerer d).site.vars e,
      y = "x" := by decide
  have hexec : Exec ((Analysis.ofClass [] cls).lowerer d).site c (.block d.body) env default
      (.returned (some (.int 3))) (env.set "x" (.int 3)) default :=
    .cons (.loopNext rfl (.cons (.assign rfl) .nil) (.loopDone rfl)) (.consLeft (.ret rfl) nofun)
  exact lower_preserves_execution (Analysis.ofClass [] cls) (i := 0) rfl
    (fun e he ↦ ⟨fun y hy ↦ hvars e he y hy ▸ hx, by revert e; decide⟩)
    (fun e he n ↦ by
      obtain rfl := List.mem_singleton.mp he
      rfl) hexec

end Ollir
end Jmm
