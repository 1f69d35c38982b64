import Jmm.Proofs.Lowering.Jumps

/-!
# Temporaries are assigned before they are read

`Method.Path m is pc` says that control can come from the first instruction to the index `pc`
through the instructions `is`, whatever the tests on the way give.  On every path through a lowered
method a generated variable is assigned to before it is read (`temporaries_assigned_before_read`).

A method is `Safe` from an index on, where some variables are known to be assigned to, if no path of
a given length reads another generated one.  `Provides m given code xs` is the rule for code in its
place: entered with the variables `given` it is safe up to its end, where the variables `xs` are
known as well, provided that the method is safe from there on.  It splits along `++`, and what was
known stays known, so that expressions provide what their value reads and need nothing, wherever
their code stands.
-/

set_option autoImplicit false

namespace Jmm.Ollir

open Semantics

/-! ## Paths -/

namespace Instr

/-- The label an instruction may jump to. -/
def target? : Instr → Option String
  | branch _ label | goto label => some label
  | _ => none

/-- Whether control may go on to the next instruction. -/
def fallsThrough : Instr → Bool
  | goto _ | ret _ _ => false
  | _ => true

theorem target?_of_isCall {i : Instr} (h : i.isCall = true) : i.target? = none := by
  cases i with
  | call c => rfl
  | _ => exact nomatch h

end Instr

/-- Control may go from an instruction at an index to another index. -/
def Method.Follows (m : Method) (i : Instr) (pc pc' : Nat) : Prop :=
  (i.fallsThrough = true ∧ pc' = pc + 1) ∨ ∃ x, i.target? = some x ∧ m.labelTarget? x = some pc'

/-- Control can come from the first instruction to an index through the given instructions. -/
inductive Method.Path (m : Method) : List Instr → Nat → Prop where
  | start : Method.Path m [] 0
  | step {is : List Instr} {i : Instr} {pc pc' : Nat} (h : Method.Path m is pc)
    (hi : m.instrs[pc]? = some i) (hnext : m.Follows i pc pc') : Method.Path m (is ++ [i]) pc'

section Runs

variable {m : Method} {c : Context} {env env' : Env} {s s' : Shared} {pc pc' : Nat}

theorem Method.jump_target {x : String} (h : m.jump x env s = .ok (.goto pc' env') s') :
    m.labelTarget? x = some pc' := by
  rw [jump] at h
  cases htarget : m.labelTarget? x with
  | none =>
    rw [htarget] at h
    cases h
  | some pc =>
    rw [htarget] at h
    cases h
    rfl

theorem Instr.exec_follows {i : Instr} (h : i.exec c m pc env s = .ok (.goto pc' env') s') :
    m.Follows i pc pc' := by
  cases i with
  | assign target t value =>
    cases target with
    | var x t' =>
      obtain ⟨v, s₁, _, h⟩ := Eval.bind_eq_ok h
      cases h
      exact .inl ⟨rfl, rfl⟩
    | element x position t' =>
      obtain ⟨v, s₁, _, h⟩ := Eval.bind_eq_ok h
      obtain ⟨w, s₂, _, h⟩ := Eval.bind_eq_ok h
      obtain ⟨_, s₃, _, h⟩ := Eval.bind_eq_ok h
      cases h
      exact .inl ⟨rfl, rfl⟩
    | _ => exact nomatch h
  | putField object field t value =>
    obtain ⟨v, s₁, _, h⟩ := Eval.bind_eq_ok h
    obtain ⟨w, s₂, _, h⟩ := Eval.bind_eq_ok h
    obtain ⟨_, s₃, _, h⟩ := Eval.bind_eq_ok h
    cases h
    exact .inl ⟨rfl, rfl⟩
  | branch test x =>
    obtain ⟨v, s₁, _, h⟩ := Eval.bind_eq_ok h
    obtain ⟨holds, s₂, _, h⟩ := Eval.bind_eq_ok h
    cases holds with
    | true => exact .inr ⟨x, rfl, Method.jump_target h⟩
    | false =>
      cases h
      exact .inl ⟨rfl, rfl⟩
  | goto x => exact .inr ⟨x, rfl, Method.jump_target h⟩
  | ret t value =>
    cases value with
    | none => exact nomatch h
    | some o =>
      obtain ⟨v, s₁, _, h⟩ := Eval.bind_eq_ok h
      exact nomatch h
  | _ =>
    obtain ⟨v, s₁, _, h⟩ := Eval.bind_eq_ok h
    cases h
    exact .inl ⟨rfl, rfl⟩

/-- A run of a method is a path. -/
theorem Method.path_of_steps (h : m.Steps c (.running 0 env s) (.running pc env' s')) :
    ∃ is, m.Path is pc := by
  generalize hst : State.running pc env' s' = st at h
  induction h generalizing pc env' s' with
  | refl =>
    cases hst
    exact ⟨[], .start⟩
  | @tail st st' _ hstep ih =>
    subst hst
    obtain ⟨pc₁, env₁, s₁, i, rfl, hi, hexec⟩ := Method.step_eq_running hstep
    obtain ⟨is, hpath⟩ := ih rfl
    exact ⟨is ++ [i], hpath.step hi (Instr.exec_follows hexec)⟩

end Runs

/-! ## Safety -/

/-- The generated ones among some variables are known. -/
def Covers (known xs : List String) : Prop := ∀ x ∈ xs, IsGenerated x → x ∈ known

/-- On paths of a length from an index on, generated variables are read only if they are known or
were assigned to. -/
def Safe (m : Method) : Nat → Nat → List String → Prop
  | 0, _, _ => True
  | k + 1, pc, known => ∀ i, m.instrs[pc]? = some i →
    Covers known i.reads ∧ ∀ pc', m.Follows i pc pc' → Safe m k pc' (i.write?.toList ++ known)

section Safe

variable {m : Method} {known known' xs ys : List String} {k pc : Nat}

theorem covers_nil (known : List String) : Covers known [] := fun _ h ↦ absurd h List.not_mem_nil

theorem Covers.mono (h : Covers known xs) (hsub : known ⊆ known') : Covers known' xs :=
  fun x hx hgen ↦ hsub (h x hx hgen)

theorem Covers.of_subset (h : Covers known xs) (hsub : ys ⊆ xs) : Covers known ys :=
  fun x hx ↦ h x (hsub hx)

theorem Covers.append (h : Covers known xs) (h' : Covers known ys) : Covers known (xs ++ ys) :=
  fun x hx ↦ (List.mem_append.mp hx).elim (h x) (h' x)

theorem Safe.mono (h : Safe m k pc known) (hsub : known ⊆ known') : Safe m k pc known' := by
  induction k generalizing pc known known' with
  | zero => trivial
  | succ k ih =>
    intro i hi
    obtain ⟨hreads, hnext⟩ := h i hi
    refine ⟨hreads.mono hsub, fun pc' hpc' ↦ ih (hnext pc' hpc') ?_⟩
    exact List.append_subset.mpr
      ⟨List.subset_append_left _ _, List.subset_append_of_subset_right _ hsub⟩

theorem Safe.of_succ (h : Safe m (k + 1) pc known) : Safe m k pc known := by
  induction k generalizing pc known with
  | zero => trivial
  | succ k ih =>
    intro i hi
    obtain ⟨hreads, hnext⟩ := h i hi
    exact ⟨hreads, fun pc' hpc' ↦ ih (hnext pc' hpc')⟩

theorem safe_branch {test : Instr} {x : String} {pc' : Nat}
    (hi : m.instrs[pc]? = some (.branch test x)) (htarget : m.labelTarget? x = some pc')
    (hreads : Covers known test.reads) (hnext : Safe m k (pc + 1) known)
    (hjump : Safe m k pc' known) : Safe m (k + 1) pc known := by
  intro j hj
  obtain rfl := Option.some.inj (hi.symm.trans hj)
  refine ⟨hreads, ?_⟩
  rintro _ (⟨_, rfl⟩ | ⟨_, hx, htarget'⟩)
  · exact hnext
  · obtain rfl := Option.some.inj hx
    obtain rfl := Option.some.inj (htarget.symm.trans htarget')
    exact hjump

theorem safe_goto {x : String} {pc' : Nat} (hi : m.instrs[pc]? = some (.goto x))
    (htarget : m.labelTarget? x = some pc') (hjump : Safe m k pc' known) :
    Safe m (k + 1) pc known := by
  intro j hj
  obtain rfl := Option.some.inj (hi.symm.trans hj)
  refine ⟨covers_nil known, ?_⟩
  rintro _ (⟨hfalls, _⟩ | ⟨_, hx, htarget'⟩)
  · exact nomatch hfalls
  · obtain rfl := Option.some.inj hx
    obtain rfl := Option.some.inj (htarget.symm.trans htarget')
    exact hjump

/-- What is assigned to on a path is known at its end. -/
theorem Method.Path.safe {is : List Instr} (h : m.Path is pc) (hsafe : ∀ k, Safe m k 0 []) :
    ∀ k, Safe m k pc (is.filterMap Instr.write?) := by
  induction h with
  | start => exact hsafe
  | @step is i pc pc' _ hi hnext ih =>
    intro k
    refine ((ih (k + 1) i hi).2 pc' hnext).mono ?_
    intro x hx
    rw [List.filterMap_append, List.mem_append]
    rcases List.mem_append.mp hx with hx | hx
    · exact .inr (by simpa using hx)
    · exact .inl hx

end Safe

/-! ## Rules for code in its place -/

/-- Code that is safe if it is entered with given variables, where others are known at its end. -/
def Provides (m : Method) (given : List String) (code : List Item) (xs : List String) : Prop :=
  ∀ pc, Placed m pc code → ∀ k known, Covers known given →
    (∀ known', known ⊆ known' → Covers known' xs → Safe m k (pc + codeSize code) known') →
    Safe m k pc known

section Provides

variable {m : Method} {given given' xs ys : List String} {a b : List Item} {i : Instr}

theorem Provides.mono (h : Provides m given a xs) (hgiven : given ⊆ given') (hxs : ys ⊆ xs) :
    Provides m given' a ys := by
  intro pc hplaced k known hknown hend
  exact h pc hplaced k known (hknown.of_subset hgiven) fun known' hsub hxs' ↦
    hend known' hsub (hxs'.of_subset hxs)

/-- Nothing has to be done for variables that are not generated. -/
theorem provides_nil (h : ∀ x ∈ xs, ¬ IsGenerated x) : Provides m given [] xs := by
  intro pc _ k known _ hend
  exact hend known (List.Subset.refl known) fun x hx hgen ↦ absurd hgen (h x hx)

theorem provides_nil_nil : Provides m given [] [] :=
  provides_nil fun _ h ↦ absurd h List.not_mem_nil

/-- What is known after code stays known. -/
theorem Provides.append_both (h : Provides m given a xs) (h' : Provides m (xs ++ given) b ys) :
    Provides m given (a ++ b) (xs ++ ys) := by
  intro pc hplaced k known hknown hend
  obtain ⟨hplaced, hplaced'⟩ := placed_append.mp hplaced
  refine h pc hplaced k known hknown fun known₁ hsub hxs ↦ ?_
  refine h' _ hplaced' k known₁ (hxs.append (hknown.mono hsub)) fun known₂ hsub' hys ↦ ?_
  rw [Nat.add_assoc, ← codeSize_append]
  exact hend known₂ (List.Subset.trans hsub hsub') ((hxs.mono hsub').append hys)

theorem Provides.append (h : Provides m given a xs) (h' : Provides m (xs ++ given) b ys) :
    Provides m given (a ++ b) ys :=
  (h.append_both h').mono (List.Subset.refl given) (List.subset_append_right xs ys)

/-- Code that needs nothing may follow. -/
theorem Provides.append_free (h : Provides m given a xs) (h' : Provides m [] b ys) :
    Provides m given (a ++ b) (xs ++ ys) :=
  h.append_both (h'.mono (List.nil_subset _) (List.Subset.refl ys))

/-- What is known at the end may be forgotten. -/
theorem Provides.forget (h : Provides m given a xs) : Provides m given a [] :=
  h.mono (List.Subset.refl given) (List.nil_subset xs)

/-- An instruction that does not jump provides the variable it assigns to. -/
theorem provides_instr (htarget : i.target? = none) (hreads : i.reads ⊆ given) :
    Provides m given [.instr i] i.write?.toList := by
  intro pc hplaced k known hknown hend
  cases k with
  | zero => trivial
  | succ k =>
    intro j hj
    obtain rfl := Option.some.inj (hplaced.1.symm.trans hj)
    refine ⟨hknown.of_subset hreads, ?_⟩
    rintro pc' (⟨_, rfl⟩ | ⟨x, hx, _⟩)
    · exact (hend _ (List.subset_append_right _ _) fun x hx _ ↦ List.mem_append_left _ hx).of_succ
    · rw [htarget] at hx
      exact nomatch hx

theorem provides_assignVar {x : String} {t : Ty} {value : Instr} (hreads : value.reads ⊆ given) :
    Provides m given [assignVar x t value] [x] :=
  provides_instr (i := .assign (.var x t) t value) rfl hreads

/-- Both branches provide what is known after them. -/
theorem provides_diamond {test : Instr} {trueLabel endLabel : String} (hreads : test.reads ⊆ given)
    (ha : Provides m given a xs) (hb : Provides m given b xs) :
    Provides m given (diamond test trueLabel endLabel a b) xs := by
  intro pc hplaced k known hknown hend
  have hparts := placedDiamond_of_placed hplaced
  rw [codeSize_diamond, ← Nat.add_assoc, ← Nat.add_assoc, ← Nat.add_assoc] at hend
  have hfirst : Safe m k (pc + 1) known :=
    -- the first branch ends with a jump over the second one
    ha _ hparts.hfalse k known hknown fun known' hsub hxs ↦
      (safe_goto hparts.hgoto hparts.hend (hend known' hsub hxs)).of_succ
  have hsecond : Safe m k (pc + 1 + codeSize a + 1) known :=
    hb _ hparts.htrue k known hknown hend
  exact (safe_branch hparts.hbranch hparts.hlabel (hknown.of_subset hreads) hfirst hsecond).of_succ

/-- The test of a loop is tested again after the body. -/
theorem provides_loop {test : Instr} {bodyLabel endLabel : String} (hreads : test.reads ⊆ given)
    (ha : Provides m given a []) :
    Provides m given (.instr (.branch test bodyLabel) :: .instr (.goto endLabel)
      :: .label bodyLabel :: (a ++ [.instr (.branch test bodyLabel), .label endLabel])) [] := by
  intro pc hplaced k known hknown hend
  simp only [placed_instr, placed_append, placed_label, placed_nil, and_true] at hplaced
  obtain ⟨hbranch, hgoto, hbody, hplaced, hback, hlast⟩ := hplaced
  have hsize : pc + codeSize (.instr (.branch test bodyLabel) :: .instr (.goto endLabel)
      :: .label bodyLabel :: (a ++ [.instr (.branch test bodyLabel), .label endLabel]))
      = pc + 1 + 1 + codeSize a + 1 := by
    simp only [codeSize_instr, codeSize_label, codeSize_append, codeSize_nil]
    omega
  rw [hsize] at hend
  -- the body is entered again with more variables, and fewer steps to go
  have hloop : ∀ k known, Covers known given →
      (∀ known', known ⊆ known' → Covers known' [] →
        Safe m k (pc + 1 + 1 + codeSize a + 1) known') → Safe m k (pc + 1 + 1) known := by
    intro k
    induction k with
    | zero => exact fun _ _ _ ↦ trivial
    | succ k ih =>
      intro known hknown hend
      refine ha _ hplaced (k + 1) known hknown fun known₁ hsub _ ↦ ?_
      have hknown₁ := hknown.mono hsub
      refine safe_branch hback hbody (hknown₁.of_subset hreads)
        (hend known₁ hsub (covers_nil known₁)).of_succ ?_
      exact ih known₁ hknown₁ fun known₂ hsub' h ↦
        (hend known₂ (List.Subset.trans hsub hsub') h).of_succ
  have hskip : Safe m k (pc + 1) known :=
    (safe_goto hgoto hlast (hend known (List.Subset.refl known) (covers_nil known))).of_succ
  have henter : Safe m k (pc + 1 + 1) known := hloop k known hknown hend
  exact (safe_branch hbranch hbody (hknown.of_subset hreads) hskip henter).of_succ

end Provides

/-! ## Expressions -/

section Lowered

variable {m : Method} {given : List String} {code : List Item} {value : Instr} {x y : Lowered}

/-- A lowered expression that needs nothing and provides what its value reads. -/
def ProvidesLowered (m : Method) (x : Lowered) : Prop := Provides m [] x.code x.value.reads

theorem provides_materialize (h : Provides m given code value.reads) (n : Names) :
    Provides m given (code ++ (materialize value n).1.1) (materialize value n).1.2.reads := by
  rcases materialize_cases value n with ⟨o, rfl, heq⟩ | ⟨_, heq⟩
  · rw [heq, List.append_nil]
    exact h
  · rw [heq]
    exact h.append (provides_assignVar (List.subset_append_left _ _))

theorem provides_asOperand {e : Draw Lowered} (h : ∀ n, ProvidesLowered m (e n).1) (n : Names) :
    Provides m [] (asOperand e n).1.1 (asOperand e n).1.2.reads := by
  rw [asOperand_apply]
  exact provides_materialize (h n) _

theorem provides_asVar {e : Draw Lowered} (h : ∀ n, ProvidesLowered m (e n).1) (n : Names) :
    Provides m [] (asVar e n).1.1 [(asVar e n).1.2.1] := by
  have hcode := provides_asOperand h n
  rcases asVar_cases e n with ⟨name, t, ho, heq⟩ | ⟨_, heq⟩
  · rw [heq]
    rw [ho] at hcode
    exact hcode
  · rw [heq]
    exact hcode.append (provides_assignVar (List.subset_append_left _ _))

theorem provides_stored (h : Provides m [] code value.reads) (n : Names) :
    ProvidesLowered m (stored code value n).1 := by
  rw [stored_apply]
  exact provides_materialize h n

theorem provides_shortCircuit (hx : ProvidesLowered m x) (hy : ProvidesLowered m y) (t : Ty)
    (isOr : Bool) (n : Names) : ProvidesLowered m (shortCircuit x y t isOr n).1 := by
  obtain ⟨trueLabel, endLabel, result, _, heq⟩ := shortCircuit_diamond x y t isOr n
  have hdecided : Provides m (x.value.reads ++ [])
      [assignVar result t (.single (Operand.bool isOr))] [result] :=
    provides_assignVar (List.nil_subset _)
  have hundecided : Provides m (x.value.reads ++ [])
      (y.code ++ [assignVar result t y.value]) [result] :=
    (hy.append (provides_assignVar (List.subset_append_left _ _))).mono (List.nil_subset _)
      (List.Subset.refl _)
  rw [heq]
  refine hx.append (provides_diamond (List.subset_append_left _ _) ?_ ?_)
  · cases isOr
    · exact hdecided
    · exact hundecided
  · cases isOr
    · exact hundecided
    · exact hdecided

theorem provides_operation (hx : ProvidesLowered m x) (hy : ProvidesLowered m y) (op : BinOp)
    (t : Ty) (inline : Bool) (n : Names) : ProvidesLowered m (operation op x y t inline n).1 := by
  obtain ⟨code, o, o', n', rfl, rfl, rfl, rfl, heq⟩ := operation_apply op x y t inline n
  have hleft := provides_materialize hx n
  have hright := provides_materialize hy (materialize x.value n).2
  have hcode := hleft.append_free hright
  rw [← List.append_assoc] at hcode
  rw [heq]
  cases inline with
  | true => exact hcode
  | false => exact provides_stored hcode _

/-- The array is assigned to before its elements are. -/
theorem provides_packed (length : Nat) (element : Ty) {fill : String → Draw (List Item)}
    (hfill : ∀ name n, Provides m [name] (fill name n).1 []) (n : Names) :
    ProvidesLowered m (packed length element fill n).1 := by
  have halloc : ∀ temp, Provides m [] [assignVar temp (.array element)
      (.call (Call.newArray (Operand.int (Int32.ofNat length)) (.array element)))] [temp] :=
    fun temp ↦ provides_assignVar (List.nil_subset _)
  have hname : ∀ temp name, Provides m [temp] [assignVar name (.array element)
      (.single (.var temp (.array element)))] [name] :=
    fun temp name ↦ provides_assignVar (List.Subset.refl [temp])
  rw [packed, Draw.bind_apply]
  split
  · exact halloc _
  · exact ((halloc _).append (hname _ _)).append_both (hfill _ _)

end Lowered

namespace Lowerer

variable (l : Lowerer) {m : Method}

theorem provides_stores {es : List Expr}
    (ih : ∀ e ∈ es, ∀ use n, ProvidesLowered m (l.expr e use n).1) (array : String) (element : Ty)
    (position : Nat) (n : Names) :
    Provides m [array] (l.stores array element position es n).1 [] := by
  induction es generalizing position n with
  | nil => exact provides_nil_nil
  | cons e es ihes =>
    rw [Lowerer.stores]
    simp only [Draw.bind_apply, Draw.pure_apply]
    have hfirst := provides_asOperand (ih e List.mem_cons_self (.expected element)) n
    generalize asOperand (l.expr e (.expected element)) n = first at hfirst ⊢
    obtain ⟨⟨code, o⟩, n₁⟩ := first
    -- a store reads the array and the value
    have hreads : [array] ++ o.reads ⊆ o.reads ++ [array] := List.perm_append_comm.subset
    have hstore : Provides m (o.reads ++ [array]) [.instr (.assign (.element array
        (Operand.int (Int32.ofNat position)) element) element (.single o))] [] :=
      provides_instr rfl hreads
    have hrest := ihes (fun e' he' ↦ ih e' (List.mem_cons_of_mem e he')) (position + 1) n₁
    have hall := ((hfirst.mono (List.nil_subset [array]) (List.Subset.refl _)).append hstore).append
      hrest
    rwa [List.append_assoc] at hall

theorem provides_args {es : List Expr}
    (ih : ∀ e ∈ es, ∀ use n, ProvidesLowered m (l.expr e use n).1) (formals : List (Ty × Bool))
    (position : Nat) (n : Names) :
    Provides m [] (l.args formals position es n).1.1
      ((l.args formals position es n).1.2.flatMap Operand.reads) := by
  induction es generalizing position n with
  | nil => exact provides_nil_nil
  | cons e es ihes =>
    rw [Lowerer.args]
    have hfirst := provides_asOperand (ih e List.mem_cons_self (argUse formals position)) n
    have hrest := ihes (fun e' he' ↦ ih e' (List.mem_cons_of_mem e he')) (position + 1)
      (asOperand (l.expr e (argUse formals position)) n).2
    exact hfirst.append_free hrest

theorem provides_callArgs {es : List Expr}
    (ih : ∀ e ∈ es, ∀ use n, ProvidesLowered m (l.expr e use n).1) (formals : List (Ty × Bool))
    (n : Names) :
    Provides m [] (l.callArgs formals es n).1.1
      ((l.callArgs formals es n).1.2.flatMap Operand.reads) := by
  rw [callArgs]
  cases l.packedType? formals es with
  | none => exact l.provides_args ih formals 0 n
  | some element =>
    have hpacked := provides_asOperand
      (provides_packed es.length element fun name ↦ l.provides_stores ih name element 0) n
    show Provides m [] _ ([_].flatMap Operand.reads)
    rw [List.flatMap_singleton]
    exact hpacked

theorem provides_finishCall {code : List Item} {caller : Operand} {args : List Operand}
    (h : Provides m [] code (caller.reads ++ args.flatMap Operand.reads)) (e : Expr)
    (onImport : Bool) (method : String) (use : Use) (n : Names) :
    ProvidesLowered m (l.finishCall e onImport code caller method args use n).1 := by
  rw [finishCall]
  split
  · cases onImport <;> exact h
  · exact provides_stored h n

/-- **The code of an expression provides what its value reads.** -/
theorem provides_expr (e : Expr) (hplain : ∀ y ∈ l.site.vars e, ¬ IsGenerated y) :
    ∀ use n, ProvidesLowered m (l.expr e use n).1 := by
  have hnone : ∀ {o : Operand}, o.reads = [] → ProvidesLowered m (.ofOperand o) := by
    intro o ho
    show Provides m [] [] o.reads
    rw [ho]
    exact provides_nil_nil
  induction e with
  | int value span => exact fun _ _ ↦ hnone rfl
  | bool value span => exact fun _ _ ↦ hnone rfl
  | ident name span =>
    intro use n
    rw [Site.vars] at hplain
    rw [Lowerer.expr, Lowerer.ident]
    split
    · exact hnone rfl
    · rename_i himport
      dsimp only
      split
      · exact provides_stored provides_nil_nil n
      · rename_i hfield
        rw [if_neg (by simp [himport, hfield])] at hplain
        exact provides_nil hplain
  | self span => exact fun _ _ ↦ hnone rfl
  | paren inner span ih => exact fun use ↦ ih hplain use.inParens
  | arrayLit elements span ih =>
    have hall := fun e he ↦ ih e he fun y hy ↦ hplain y (Site.vars_subset_varsAll he hy)
    exact fun _ ↦ provides_packed _ _ fun name ↦ l.provides_stores hall name .int32 0
  | not operand span ih => exact fun _ n ↦ provides_asOperand (ih hplain .operand) n
  | index array position span iha ihp =>
    intro use n
    rw [Site.vars] at hplain
    have harray := provides_asVar (iha (fun y hy ↦ hplain y (List.mem_append_left _ hy)) .operand) n
    rcases h₁ : asVar (l.expr array .operand) n with ⟨⟨code₁, name, t⟩, n₁⟩
    have hposition := provides_asOperand
      (ihp (fun y hy ↦ hplain y (List.mem_append_right _ hy)) .operand) n₁
    rcases h₂ : asOperand (l.expr position .operand) n₁ with ⟨⟨code₂, index⟩, n₂⟩
    rw [h₁] at harray
    rw [h₂] at hposition
    have hcode := harray.append_free hposition
    rcases l.expr_index h₁ h₂ span use with ⟨_, heq⟩ | ⟨_, heq⟩
    · rw [heq]
      exact hcode
    · rw [heq]
      exact hcode.append (provides_assignVar (List.subset_append_left _ _))
  | binary op left right span ihl ihr =>
    intro use n
    rw [Site.vars] at hplain
    have hleft := ihl fun y hy ↦ hplain y (List.mem_append_left _ hy)
    have hright := ihr fun y hy ↦ hplain y (List.mem_append_right _ hy)
    rw [l.expr_binary]
    cases op with
    | and | or => exact provides_shortCircuit (hleft _ _) (hright _ _) _ _ _
    | _ => exact provides_operation (hleft _ _) (hright _ _) _ _ _ _
  | call receiver method args span ihr iha =>
    intro use n
    rw [Site.vars] at hplain
    have hcaller := provides_asOperand
      (ihr (fun y hy ↦ hplain y (List.mem_append_left _ hy)) .operand) n
    have hargs := l.provides_callArgs (fun e he ↦ iha e he fun y hy ↦
      hplain y (List.mem_append_right _ (Site.vars_subset_varsAll he hy)))
      (l.formals receiver method) (asOperand (l.expr receiver .operand) n).2
    rw [l.expr_call]
    exact l.provides_finishCall (hcaller.append_free hargs) _ _ _ _ _
  | newArray element size span ih =>
    intro _ n
    have hsize := provides_asOperand (ih hplain .operand) n
    show Provides m [] _ ([] ++ ([_].flatMap Operand.reads))
    rw [List.nil_append, List.flatMap_singleton]
    exact hsize
  | newObject className span =>
    intro _ n
    rw [Lowerer.expr]
    have halloc : Provides m [] [] (Instr.call (Call.newObject className)).reads :=
      provides_nil_nil
    have hobject := provides_materialize halloc n
    refine (hobject.append_both (provides_instr rfl ?_)).mono (List.Subset.refl [])
      (List.subset_append_left _ _)
    exact List.append_subset.mpr ⟨List.subset_append_left _ _, List.nil_subset _⟩
  | length array span ih =>
    intro use n
    rw [l.expr_length]
    exact provides_stored (provides_asVar (ih hplain .operand) n) _

/-! ## Statements -/

theorem provides_assign (target value : Expr)
    (htarget : ∀ y ∈ l.site.vars target, ¬ IsGenerated y)
    (hvalue : ∀ y ∈ l.site.vars value, ¬ IsGenerated y) (n : Names) :
    Provides m [] (l.assign target value n).1 [] := by
  have hexpr : ∀ use n, ProvidesLowered m (l.expr value use n).1 := l.provides_expr value hvalue
  cases target with
  | ident name span =>
    rw [Lowerer.assign]
    dsimp only
    split
    · exact (provides_asOperand (hexpr _) n).append
        (provides_instr rfl (List.subset_append_left _ _))
    · exact ((hexpr _ n).append (provides_assignVar (List.subset_append_left _ _))).forget
  | index array position span =>
    rw [Site.vars] at htarget
    have harray := provides_asVar (l.provides_expr (m := m) array
      (fun y hy ↦ htarget y (List.mem_append_left _ hy)) .operand) n
    have hposition := provides_asOperand (l.provides_expr (m := m) position
      (fun y hy ↦ htarget y (List.mem_append_right _ hy)) .operand)
      (asVar (l.expr array .operand) n).2
    refine ((harray.append_free hposition).append_free (hexpr _ _)).append (provides_instr rfl ?_)
    exact List.subset_append_left _ []
  | _ => exact (hexpr .operand n).forget

theorem provides_stmts {sts : List Stmt}
    (ih : ∀ st ∈ sts, (∀ e ∈ st.exprs, ∀ y ∈ l.site.vars e, ¬ IsGenerated y) →
      ∀ n, Provides m [] (l.stmt st n).1 [])
    (hplain : ∀ e ∈ Stmt.exprsAll sts, ∀ y ∈ l.site.vars e, ¬ IsGenerated y) (n : Names) :
    Provides m [] (l.stmts sts n).1 [] := by
  induction sts generalizing n with
  | nil => exact provides_nil_nil
  | cons st sts ihs =>
    rw [Stmt.exprsAll] at hplain
    rw [Lowerer.stmts]
    exact (ih st List.mem_cons_self (fun e he ↦ hplain e (List.mem_append_left _ he)) n).append_free
      (ihs (fun st' h ↦ ih st' (List.mem_cons_of_mem st h))
        (fun e he ↦ hplain e (List.mem_append_right _ he)) _)

/-- The code of a statement needs nothing. -/
theorem provides_stmt (st : Stmt) (hplain : ∀ e ∈ st.exprs, ∀ y ∈ l.site.vars e, ¬ IsGenerated y) :
    ∀ n, Provides m [] (l.stmt st n).1 [] := by
  induction st with
  | assign target value span =>
    exact l.provides_assign target value (hplain target List.mem_cons_self)
      (hplain value (List.mem_cons_of_mem _ List.mem_cons_self))
  | expr e span =>
    intro n
    have hcode : ProvidesLowered m (l.expr e .statement n).1 :=
      l.provides_expr e (hplain e List.mem_cons_self) .statement n
    rw [Lowerer.stmt, Lowerer.exprStmt]
    simp only [Draw.bind_apply, Draw.pure_apply]
    split
    · rename_i hcall
      exact (hcode.append
        (provides_instr (Instr.target?_of_isCall hcall) (List.subset_append_left _ _))).forget
    · exact hcode.forget
  | ret value span =>
    intro n
    cases value with
    | none => exact provides_instr (i := .ret _ none) rfl (List.Subset.refl [])
    | some e =>
      have hvalue := provides_asOperand
        (l.provides_expr (m := m) e (hplain e List.mem_cons_self) .operand) n
      exact hvalue.append (provides_instr rfl (List.subset_append_left _ _))
  | cond test thenBranch elseBranch span iht ihe =>
    intro n
    rw [Stmt.exprs] at hplain
    obtain ⟨bodyLabel, endLabel, n₁, n₂, n₃, heq⟩ := l.stmt_cond test thenBranch elseBranch span n
    have htest : ProvidesLowered m (l.expr test .condition n₁).1 :=
      l.provides_expr test (hplain test List.mem_cons_self) .condition n₁
    have hthen : Provides m [] (l.stmts thenBranch n₃).1 [] :=
      l.provides_stmts iht (fun e he ↦
        hplain e (List.mem_cons_of_mem _ (List.mem_append_left _ he))) n₃
    have helse : Provides m [] (l.stmts elseBranch n₂).1 [] :=
      l.provides_stmts ihe (fun e he ↦
        hplain e (List.mem_cons_of_mem _ (List.mem_append_right _ he))) n₂
    rw [heq]
    exact htest.append (provides_diamond (List.subset_append_left _ _)
      (helse.mono (List.nil_subset _) (List.Subset.refl []))
      (hthen.mono (List.nil_subset _) (List.Subset.refl [])))
  | loop test body span ih =>
    intro n
    rw [Stmt.exprs] at hplain
    obtain ⟨bodyLabel, endLabel, n₁, heq⟩ := l.stmt_loop test body span n
    have htest : ProvidesLowered m (l.expr test .condition n).1 :=
      l.provides_expr test (hplain test List.mem_cons_self) .condition n
    have hbody : Provides m [] (l.stmts body n₁).1 [] :=
      l.provides_stmts ih (fun e he ↦ hplain e (List.mem_cons_of_mem _ he)) n₁
    rw [heq]
    exact htest.append (provides_loop (List.subset_append_left _ _)
      (hbody.mono (List.nil_subset _) (List.Subset.refl [])))

/-! ## Methods -/

/-- A lowered method is safe from its first instruction on. -/
theorem safe_method
    (hplain : ∀ e ∈ Stmt.exprsAll l.decl.body, ∀ y ∈ l.site.vars e, ¬ IsGenerated y) (n : Names)
    (k : Nat) : Safe (l.method n).1 k 0 [] := by
  have hbody : Provides (l.method n).1 [] (l.stmts l.decl.body n).1 [] :=
    l.provides_stmts (fun st _ ↦ l.provides_stmt st) hplain n
  have hcode : Provides (l.method n).1 [] (l.code n) [] := by
    rw [code]
    refine hbody.append ?_
    cases l.decl.hasReturn with
    | true => exact provides_nil_nil
    | false => exact provides_instr (i := .ret _ none) rfl (List.Subset.refl [])
  refine hcode 0 (l.placed_method n) k [] (covers_nil []) fun known _ _ ↦ ?_
  -- there is no instruction after the code
  cases k with
  | zero => trivial
  | succ k =>
    intro i hi
    rw [instrs_method, Nat.zero_add, codeSize, List.getElem?_eq_none (Nat.le_refl _)] at hi
    cases hi

end Lowerer

/-- **Temporaries are assigned before they are read.**  Let no variable in the body of a method have
a generated name.  On every path through the lowered method, an instruction that reads a generated
variable, be it as an operand, as an array or in an index, comes after one that assigns to it.  The
runs of the method are such paths. -/
theorem temporaries_assigned_before_read (a : Analysis) (cls : ClassDecl) {index : Nat}
    {d : MethodDecl} (hd : cls.methods[index]? = some d)
    (hplain : ∀ e ∈ Stmt.exprsAll d.body, ∀ y ∈ (a.lowerer d).site.vars e, ¬ IsGenerated y) :
    ∃ m, (a.lower cls).methods[index]? = some m
      ∧ (∀ is pc i x, m.Path is pc → m.instrs[pc]? = some i → x ∈ i.reads → IsGenerated x →
        ∃ j ∈ is, j.write? = some x)
      ∧ ∀ c env s pc env' s', m.Steps c (.running 0 env s) (.running pc env' s') →
        ∃ is, m.Path is pc := by
  obtain ⟨n, hm⟩ := lowerMethods_getElem? a hd {}
  refine ⟨_, hm, fun is pc i x hpath hi hx hgen ↦ ?_, fun _ _ _ _ _ _ ↦ Method.path_of_steps⟩
  have hsafe := hpath.safe ((a.lowerer d).safe_method hplain n) 1
  exact List.mem_filterMap.mp ((hsafe i hi).1 x hx hgen)

/-- The statement for `b = b && x < 9; return b;`.  Both branches of the conjunction assign to the
temporary that is then stored in `b`. -/
theorem temporaries_assigned_before_read_conjunction :
    let b : Expr := .ident "b" {}
    let boolean : TypeName := { name := "boolean" }
    let d : MethodDecl :=
      { name := "below", isPublic := true, isStatic := false, returns := boolean,
        params := [{ name := "x", type := { name := "int" } }, { name := "b", type := boolean }],
        locals := [],
        body := [.assign b (.binary .and b (.binary .less (.ident "x" {}) (.int 9 {}) {}) {}) {},
          .ret (some b) {}] }
    let cls : ClassDecl := { name := "A", superclass := none, fields := [], methods := [d] }
    let y (name : String) : Operand := .var name .boolean
    let set (name : String) (value : Instr) : Instr := .assign (y name) .boolean value
    let test : Instr := .branch (.single (y "b")) "true_0"
    let less : Instr := .binary .less (.var "x" .int32) (.literal 9 .int32) .boolean
    ∃ m, ((Analysis.ofClass [] cls).lower cls).methods[0]? = some m
      ∧ m.instrs[5]? = some (set "b" (.single (y "tmp1")))
      ∧ m.Path [test, set "tmp1" (.single (.literal 0 .boolean)), .goto "end_0"] 5
      ∧ m.Path [test, set "tmp0" less, set "tmp1" (.single (y "tmp0"))] 5
      ∧ ∀ is, m.Path is 5 → ∃ j ∈ is, j.write? = some "tmp1" := by
  intro b boolean d cls y set test less
  have hnames : ∀ e ∈ Stmt.exprsAll d.body, ∀ z ∈ ((Analysis.ofClass [] cls).lowerer d).site.vars e,
      z.toList.head? ≠ some 't' ∧ z.toList.head? ≠ some '_' := by decide
  have hplain : ∀ e ∈ Stmt.exprsAll d.body,
      ∀ z ∈ ((Analysis.ofClass [] cls).lowerer d).site.vars e, ¬ IsGenerated z :=
    fun e he z hz hgen ↦ hgen.head?.elim (hnames e he z hz).1 (hnames e he z hz).2
  have hd : cls.methods[0]? = some d := rfl
  obtain ⟨m, hm, hpaths, _⟩ :=
    temporaries_assigned_before_read (Analysis.ofClass [] cls) cls hd hplain
  let m₀ : Method :=
    { name := "below", isPublic := true, params := [.var "x" .int32, y "b"], returns := .boolean,
      instrs := [test, set "tmp1" (.single (.literal 0 .boolean)), .goto "end_0", set "tmp0" less,
        set "tmp1" (.single (y "tmp0")), set "b" (.single (y "tmp1")),
        .ret .boolean (some (y "b"))],
      labels := [("true_0", 3), ("end_0", 5)] }
  obtain rfl : m = m₀ := Option.some.inj (hm.symm.trans (by decide +kernel))
  have hskipped : m₀.Path [test, set "tmp1" (.single (.literal 0 .boolean))] 2 :=
    .step (.step .start rfl (.inl ⟨rfl, rfl⟩)) rfl (.inl ⟨rfl, rfl⟩)
  have htaken : m₀.Path [test] 3 := .step .start rfl (.inr ⟨"true_0", rfl, rfl⟩)
  refine ⟨m₀, hm, rfl, .step hskipped rfl (.inr ⟨"end_0", rfl, rfl⟩),
    .step (.step htaken rfl (.inl ⟨rfl, rfl⟩)) rfl (.inl ⟨rfl, rfl⟩), fun is hpath ↦ ?_⟩
  exact hpaths is 5 _ "tmp1" hpath rfl List.mem_cons_self ⟨.temp, 1, rfl, by decide⟩

end Jmm.Ollir
