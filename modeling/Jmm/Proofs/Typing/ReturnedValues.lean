import Jmm.Proofs.Lowering.Returns
import Jmm.Proofs.Typing.Rules

/-!
# Which returns are reached

A method whose declared type is not `void` has to give a value back wherever control leaves it.  The
checker compares the return statements that there are with the declared type, but does not ask
whether control may come to the end of the body, where a return without a value is added.

`Stmt.completesAll` says whether control may come to the end of statements, and `Stmt.reachedAll`
which return statements it may come to.  The returns that are reached in a lowered method are those
of the reached return statements, and the one at the end if the body completes
(`Lowerer.reachesReturn_iff`).  So in a class without violations the returns agree with a declared
type that is not `void` if and only if the body does not complete, and with `void` if and only if no
reached return statement has an expression, which is then itself of type `void`
(`reached_returns_agree_iff`).

`Routes` is the rule for code in its place: from its start a return is reached if one is reached
inside, or if control may come to its end and one is reached from there.  Paths through loops are
followed by the number of steps that are left.
-/

set_option autoImplicit false

namespace Jmm

namespace Stmt

mutual

/-- Whether control may come to the end of a statement, whatever the tests give. -/
def completes : Stmt → Bool
  | ret _ _ => false
  | cond _ thenBranch elseBranch _ => completesAll thenBranch || completesAll elseBranch
  | assign _ _ _ | expr _ _ | loop _ _ _ => true

/-- Whether control may come to the end of statements. -/
def completesAll : List Stmt → Bool
  | [] => true
  | st :: sts => completes st && completesAll sts

end

mutual

/-- What the return statements give back that control may come to. -/
def reached : Stmt → List (Option Expr)
  | ret value _ => [value]
  | cond _ thenBranch elseBranch _ => reachedAll thenBranch ++ reachedAll elseBranch
  | loop _ body _ => reachedAll body
  | assign _ _ _ | expr _ _ => []

/-- What the return statements give back that control may come to in statements. -/
def reachedAll : List Stmt → List (Option Expr)
  | [] => []
  | st :: sts => reached st ++ if completes st then reachedAll sts else []

end

/-- Statements with a return among them do not complete. -/
theorem completesAll_of_any_isReturn {sts : List Stmt} (h : sts.any isReturn = true) :
    completesAll sts = false := by
  induction sts with
  | nil => cases h
  | cons st sts ih =>
    rw [completesAll, Bool.and_eq_false_iff]
    rcases Bool.or_eq_true_iff.mp h with hst | hsts
    · cases st with
      | ret value span => exact .inl rfl
      | _ => cases hst
    · exact .inr (ih hsts)

theorem exists_ret_of_mem_reachedAll {sts : List Stmt} {value : Option Expr}
    (ih : ∀ st ∈ sts, value ∈ st.reached → ∃ span, .ret value span ∈ st.parts)
    (h : value ∈ reachedAll sts) : ∃ span, .ret value span ∈ partsAll sts := by
  induction sts with
  | nil => exact absurd h List.not_mem_nil
  | cons st sts ihs =>
    obtain ⟨hfirst, hrest⟩ := List.forall_mem_cons.mp ih
    rw [reachedAll, List.mem_append] at h
    rcases h with h | h
    · obtain ⟨span, hspan⟩ := hfirst h
      exact ⟨span, List.mem_append_left _ hspan⟩
    · split at h
      · obtain ⟨span, hspan⟩ := ihs hrest h
        exact ⟨span, List.mem_append_right _ hspan⟩
      · exact absurd h List.not_mem_nil

/-- What is reached are return statements in the statement. -/
theorem exists_ret_of_mem_reached {st : Stmt} {value : Option Expr} (h : value ∈ st.reached) :
    ∃ span, .ret value span ∈ st.parts := by
  induction st with
  | assign | expr => exact absurd h List.not_mem_nil
  | ret v span =>
    obtain rfl := List.mem_singleton.mp h
    exact ⟨span, List.mem_singleton_self _⟩
  | cond test thenBranch elseBranch span iht ihe =>
    rw [reached, List.mem_append] at h
    rcases h with h | h
    · obtain ⟨span', hspan⟩ := exists_ret_of_mem_reachedAll iht h
      exact ⟨span', List.mem_cons_of_mem _ (List.mem_append_left _ hspan)⟩
    · obtain ⟨span', hspan⟩ := exists_ret_of_mem_reachedAll ihe h
      exact ⟨span', List.mem_cons_of_mem _ (List.mem_append_right _ hspan)⟩
  | loop test body span ih =>
    obtain ⟨span', hspan⟩ := exists_ret_of_mem_reachedAll ih h
    exact ⟨span', List.mem_cons_of_mem _ hspan⟩

end Stmt

namespace Ollir

/-! ## Reaching a return -/

/-- The type of a return, and whether it gives a value back. -/
def Instr.returned? : Instr → Option (Ty × Bool)
  | ret type value => some (type, value.isSome)
  | _ => none

theorem Instr.returned?_of_goesOn {i : Instr} (h : i.goesOn = true) : i.returned? = none := by
  cases i with
  | ret t v => cases h
  | _ => rfl

theorem Instr.fallsThrough_of_goesOn {i : Instr} (h : i.goesOn = true) :
    i.fallsThrough = true := by
  cases i with
  | goto label | ret t v => cases h
  | _ => rfl

theorem Instr.target?_of_goesOn {i : Instr} (h : i.goesOn = true) : i.target? = none := by
  cases i with
  | branch test label | goto label => cases h
  | _ => rfl

/-- Control can come from the first instruction to a return with the given type, which gives a value
back or not. -/
def Method.ReachesReturn (m : Method) (type : Ty) (withValue : Bool) : Prop :=
  ∃ is pc i, m.Path is pc ∧ m.instrs[pc]? = some i ∧ i.returned? = some (type, withValue)

/-- Control can come from an index to a return in less than some number of steps. -/
def ReturnsIn (m : Method) (r : Ty × Bool) : Nat → Nat → Prop
  | 0, _ => False
  | k + 1, pc => ∃ i, m.instrs[pc]? = some i
    ∧ (i.returned? = some r ∨ ∃ pc', m.Follows i pc pc' ∧ ReturnsIn m r k pc')

/-- Control can come from an index to a return. -/
def Returns (m : Method) (r : Ty × Bool) (pc : Nat) : Prop := ∃ k, ReturnsIn m r k pc

section Returns

variable {m : Method} {r : Ty × Bool} {pc pc' k : Nat}

theorem ReturnsIn.succ (h : ReturnsIn m r k pc) : ReturnsIn m r (k + 1) pc := by
  induction k generalizing pc with
  | zero => exact h.elim
  | succ k ih =>
    obtain ⟨i, hi, hreturned | ⟨pc', hnext, h⟩⟩ := h
    · exact ⟨i, hi, .inl hreturned⟩
    · exact ⟨i, hi, .inr ⟨pc', hnext, ih h⟩⟩

/-- One step towards a return. -/
theorem returns_iff {i : Instr} (hi : m.instrs[pc]? = some i) :
    Returns m r pc ↔ i.returned? = some r ∨ ∃ pc', m.Follows i pc pc' ∧ Returns m r pc' := by
  constructor
  · rintro ⟨k, h⟩
    cases k with
    | zero => exact h.elim
    | succ k =>
      obtain ⟨j, hj, h⟩ := h
      obtain rfl := Option.some.inj (hi.symm.trans hj)
      exact h.imp_right fun ⟨pc', hnext, h⟩ ↦ ⟨pc', hnext, k, h⟩
  · rintro (h | ⟨pc', hnext, k, h⟩)
    · exact ⟨1, i, hi, .inl h⟩
    · exact ⟨k + 1, i, hi, .inr ⟨pc', hnext, h⟩⟩

theorem Method.Path.returns {is : List Instr} (h : m.Path is pc) (hreturns : Returns m r pc) :
    Returns m r 0 := by
  induction h with
  | start => exact hreturns
  | step _ hi hnext ih => exact ih ((returns_iff hi).mpr (.inr ⟨_, hnext, hreturns⟩))

theorem ReturnsIn.exists_path {is : List Instr} (h : ReturnsIn m r k pc) (hpath : m.Path is pc) :
    m.ReachesReturn r.1 r.2 := by
  induction k generalizing is pc with
  | zero => exact h.elim
  | succ k ih =>
    obtain ⟨i, hi, hreturned | ⟨pc', hnext, h⟩⟩ := h
    · exact ⟨is, pc, i, hpath, hi, hreturned⟩
    · exact ih h (hpath.step hi hnext)

/-- A return is reached if control can come to it from the first instruction. -/
theorem Method.reachesReturn_iff_returns {t : Ty} {b : Bool} :
    m.ReachesReturn t b ↔ Returns m (t, b) 0 := by
  constructor
  · rintro ⟨is, pc, i, hpath, hi, hreturned⟩
    exact hpath.returns ((returns_iff hi).mpr (.inl hreturned))
  · rintro ⟨k, h⟩
    exact h.exists_path .start

theorem returnsIn_plain {i : Instr} (hi : m.instrs[pc]? = some i) (hplain : i.goesOn = true) :
    ReturnsIn m r (k + 1) pc ↔ ReturnsIn m r k (pc + 1) := by
  constructor
  · rintro ⟨j, hj, h⟩
    obtain rfl := Option.some.inj (hi.symm.trans hj)
    rw [Instr.returned?_of_goesOn hplain] at h
    rcases h with h | ⟨pc', ⟨_, rfl⟩ | ⟨x, hx, _⟩, h⟩
    · cases h
    · exact h
    · rw [Instr.target?_of_goesOn hplain] at hx
      cases hx
  · intro h
    exact ⟨i, hi, .inr ⟨pc + 1, .inl ⟨Instr.fallsThrough_of_goesOn hplain, rfl⟩, h⟩⟩

theorem returnsIn_goto {x : String} (hi : m.instrs[pc]? = some (.goto x))
    (htarget : m.labelTarget? x = some pc') :
    ReturnsIn m r (k + 1) pc ↔ ReturnsIn m r k pc' := by
  constructor
  · rintro ⟨j, hj, h⟩
    obtain rfl := Option.some.inj (hi.symm.trans hj)
    rcases h with h | ⟨pc₁, ⟨hfalls, _⟩ | ⟨y, hy, htarget₁⟩, h⟩
    · cases h
    · cases hfalls
    · obtain rfl := Option.some.inj hy
      obtain rfl := Option.some.inj (htarget.symm.trans htarget₁)
      exact h
  · intro h
    exact ⟨_, hi, .inr ⟨pc', .inr ⟨x, rfl, htarget⟩, h⟩⟩

theorem returnsIn_branch {test : Instr} {x : String} (hi : m.instrs[pc]? = some (.branch test x))
    (htarget : m.labelTarget? x = some pc') :
    ReturnsIn m r (k + 1) pc ↔ ReturnsIn m r k (pc + 1) ∨ ReturnsIn m r k pc' := by
  constructor
  · rintro ⟨j, hj, h⟩
    obtain rfl := Option.some.inj (hi.symm.trans hj)
    rcases h with h | ⟨pc₁, ⟨_, rfl⟩ | ⟨y, hy, htarget₁⟩, h⟩
    · cases h
    · exact .inl h
    · obtain rfl := Option.some.inj hy
      obtain rfl := Option.some.inj (htarget.symm.trans htarget₁)
      exact .inr h
  · rintro (h | h)
    · exact ⟨_, hi, .inr ⟨pc + 1, .inl ⟨rfl, rfl⟩, h⟩⟩
    · exact ⟨_, hi, .inr ⟨pc', .inr ⟨x, rfl, htarget⟩, h⟩⟩

/-- A step that some number of steps may be followed by, or none. -/
theorem returns_of_forall_succ {P : Nat → Prop} (h : ∀ k, ReturnsIn m r (k + 1) pc ↔ P k) :
    Returns m r pc ↔ ∃ k, P k := by
  constructor
  · rintro ⟨k, hk⟩
    exact ⟨k, (h k).mp hk.succ⟩
  · rintro ⟨k, hk⟩
    exact ⟨k + 1, (h k).mpr hk⟩

end Returns

/-! ## Rules for code in its place -/

/-- From the start of the code a return is reached if one is reached inside of it, or if control may
come to its end and one is reached from there. -/
structure Routes (m : Method) (r : Ty × Bool) (code : List Item) (inside ends : Prop) : Prop where
  sound : ∀ pc, Placed m pc code → ∀ k, ReturnsIn m r k pc →
    inside ∨ ends ∧ ReturnsIn m r k (pc + codeSize code)
  complete : ∀ pc, Placed m pc code → inside ∨ ends ∧ Returns m r (pc + codeSize code) →
    Returns m r pc

section Routes

variable {m : Method} {r : Ty × Bool} {a b : List Item} {p q p' q' : Prop} {i test : Instr}

theorem Routes.congr (h : Routes m r a p q) (hp : p ↔ p') (hq : q ↔ q') : Routes m r a p' q' := by
  rw [← propext hp, ← propext hq]
  exact h

theorem routes_nil : Routes m r [] False True where
  sound _ _ _ h := .inr ⟨trivial, h⟩
  complete _ _ h := by simpa using h

theorem Routes.append (ha : Routes m r a p q) (hb : Routes m r b p' q') :
    Routes m r (a ++ b) (p ∨ q ∧ p') (q ∧ q') where
  sound pc hplaced k h := by
    obtain ⟨hpa, hpb⟩ := placed_append.mp hplaced
    rw [codeSize_append, ← Nat.add_assoc]
    rcases ha.sound pc hpa k h with h | ⟨hq, h⟩
    · exact .inl (.inl h)
    · rcases hb.sound _ hpb k h with h | ⟨hq', h⟩
      · exact .inl (.inr ⟨hq, h⟩)
      · exact .inr ⟨⟨hq, hq'⟩, h⟩
  complete pc hplaced h := by
    obtain ⟨hpa, hpb⟩ := placed_append.mp hplaced
    rw [codeSize_append, ← Nat.add_assoc] at h
    refine ha.complete pc hpa ?_
    rcases h with (h | ⟨hq, h⟩) | ⟨⟨hq, hq'⟩, h⟩
    · exact .inl h
    · exact .inr ⟨hq, hb.complete _ hpb (.inl h)⟩
    · exact .inr ⟨hq, hb.complete _ hpb (.inr ⟨hq', h⟩)⟩

theorem routes_plain (h : i.goesOn = true) : Routes m r [.instr i] False True where
  sound pc hplaced k hk := by
    cases k with
    | zero => exact hk.elim
    | succ k => exact .inr ⟨trivial, ((returnsIn_plain hplaced.1 h).mp hk).succ⟩
  complete pc hplaced hend := by
    obtain ⟨k, hk⟩ := (hend.resolve_left id).2
    exact ⟨k + 1, (returnsIn_plain hplaced.1 h).mpr hk⟩

/-- Control does not come to what follows a return. -/
theorem routes_ret (t : Ty) (v : Option Operand) :
    Routes m r [.instr (.ret t v)] (r = (t, v.isSome)) False where
  sound pc hplaced k hk := by
    obtain hreturned | ⟨pc', hnext, _⟩ := (returns_iff hplaced.1).mp ⟨k, hk⟩
    · exact .inl (Option.some.inj hreturned).symm
    · exact absurd hnext Method.not_follows_ret
  complete pc hplaced h :=
    (returns_iff hplaced.1).mpr (.inl (congrArg some (h.resolve_right (·.1)).symm))

theorem routes_diamond {trueLabel endLabel : String} (ha : Routes m r a p q)
    (hb : Routes m r b p' q') :
    Routes m r (diamond test trueLabel endLabel a b) (p ∨ p') (q ∨ q') where
  sound pc hplaced k h := by
    have hparts := placedDiamond_of_placed hplaced
    have hsize : pc + codeSize (diamond test trueLabel endLabel a b)
        = pc + 1 + codeSize a + 1 + codeSize b := by
      rw [codeSize_diamond]
      omega
    rw [hsize]
    cases k with
    | zero => exact h.elim
    | succ k =>
      rcases (returnsIn_branch hparts.hbranch hparts.hlabel).mp h with h | h
      · rcases ha.sound _ hparts.hfalse k h with h | ⟨hq, h⟩
        · exact .inl (.inl h)
        · -- the first branch ends with a jump over the second one
          have hend := (returnsIn_goto hparts.hgoto hparts.hend).mp h.succ
          exact .inr ⟨.inl hq, hend.succ⟩
      · rcases hb.sound _ hparts.htrue k h with h | ⟨hq', h⟩
        · exact .inl (.inr h)
        · exact .inr ⟨.inr hq', h.succ⟩
  complete pc hplaced h := by
    have hparts := placedDiamond_of_placed hplaced
    have hsize : pc + codeSize (diamond test trueLabel endLabel a b)
        = pc + 1 + codeSize a + 1 + codeSize b := by
      rw [codeSize_diamond]
      omega
    rw [hsize] at h
    have hgoto : Returns m r (pc + 1 + codeSize a + 1 + codeSize b) →
        Returns m r (pc + 1 + codeSize a) :=
      (returns_of_forall_succ fun _ ↦ returnsIn_goto hparts.hgoto hparts.hend).mpr
    have hbranches : Returns m r (pc + 1) ∨ Returns m r (pc + 1 + codeSize a + 1) := by
      rcases h with (h | h) | ⟨hq | hq', h⟩
      · exact .inl (ha.complete _ hparts.hfalse (.inl h))
      · exact .inr (hb.complete _ hparts.htrue (.inl h))
      · exact .inl (ha.complete _ hparts.hfalse (.inr ⟨hq, hgoto h⟩))
      · exact .inr (hb.complete _ hparts.htrue (.inr ⟨hq', h⟩))
    refine (returns_of_forall_succ fun _ ↦
      returnsIn_branch hparts.hbranch hparts.hlabel).mpr ?_
    rcases hbranches with ⟨k, hk⟩ | ⟨k, hk⟩
    · exact ⟨k, .inl hk⟩
    · exact ⟨k, .inr hk⟩

/-- Control may always come to the end of a loop, as its test may fail at once. -/
theorem routes_loop {bodyLabel endLabel : String} (ha : Routes m r a p q) :
    Routes m r (.instr (.branch test bodyLabel) :: .instr (.goto endLabel)
      :: .label bodyLabel :: (a ++ [.instr (.branch test bodyLabel), .label endLabel])) p True := by
  have hsize : ∀ pc, pc + codeSize (.instr (.branch test bodyLabel) :: .instr (.goto endLabel)
      :: .label bodyLabel :: (a ++ [.instr (.branch test bodyLabel), .label endLabel]))
      = pc + 1 + 1 + codeSize a + 1 := by
    intro pc
    simp only [codeSize_instr, codeSize_label, codeSize_append, codeSize_nil]
    omega
  constructor
  · intro pc hplaced k h
    rw [hsize]
    simp only [placed_instr, placed_append, placed_label, placed_nil, and_true] at hplaced
    obtain ⟨hbranch, hgoto, hbody, hcode, hback, hlast⟩ := hplaced
    -- the body is entered again with fewer steps to go
    have hloop : ∀ k, ReturnsIn m r k (pc + 1 + 1) →
        p ∨ ReturnsIn m r k (pc + 1 + 1 + codeSize a + 1) := by
      intro k
      induction k with
      | zero => exact fun h ↦ h.elim
      | succ k ih =>
        intro h
        rcases ha.sound _ hcode (k + 1) h with h | ⟨_, h⟩
        · exact .inl h
        · rcases (returnsIn_branch hback hbody).mp h with h | h
          · exact .inr h.succ
          · exact (ih h).imp_right ReturnsIn.succ
    cases k with
    | zero => exact h.elim
    | succ k =>
      rcases (returnsIn_branch hbranch hbody).mp h with h | h
      · exact .inr ⟨trivial, ((returnsIn_goto hgoto hlast).mp h.succ).succ⟩
      · exact (hloop k h).imp_right fun h ↦ ⟨trivial, h.succ⟩
  · intro pc hplaced h
    rw [hsize] at h
    simp only [placed_instr, placed_append, placed_label, placed_nil, and_true] at hplaced
    obtain ⟨hbranch, hgoto, hbody, hcode, _, hlast⟩ := hplaced
    refine (returns_of_forall_succ fun _ ↦ returnsIn_branch hbranch hbody).mpr ?_
    rcases h with h | ⟨_, h⟩
    · obtain ⟨k, hk⟩ := ha.complete _ hcode (.inl h)
      exact ⟨k, .inr hk⟩
    · obtain ⟨k, hk⟩ := (returns_of_forall_succ fun _ ↦ returnsIn_goto hgoto hlast).mpr h
      exact ⟨k, .inl hk⟩

/-- Control comes to the end of the code of an expression, and to no return before. -/
theorem Structured.routes {this : Bool} {arrays : List String} (h : Structured this arrays a) :
    Routes m r a False True := by
  induction h with
  | nil => exact routes_nil
  | instr hi => exact routes_plain (Instr.goesOn_of_isStraight hi)
  | append _ _ iha ihb => exact (iha.append ihb).congr (by simp) (by simp)
  | diamond _ _ _ iha ihb => exact (routes_diamond iha ihb).congr (by simp) (by simp)
  | store => exact routes_plain rfl
  | fill _ _ ih => exact ((routes_plain rfl).append ih).congr (by simp) (by simp)

end Routes

/-! ## Lowered methods -/

namespace Lowerer

variable (l : Lowerer) {m : Method} {r : Ty × Bool}

/-- The returns that are made of return statements. -/
def returned (values : List (Option Expr)) : List (Ty × Bool) :=
  values.map fun value ↦ (l.returnType, value.isSome)

theorem routes_ret_stmt (value : Option Expr) (n : Names) :
    Routes m r (l.ret value n).1 (r ∈ l.returned [value]) False := by
  have hmem : r ∈ l.returned [value] ↔ r = (l.returnType, value.isSome) := List.mem_singleton
  rw [hmem]
  cases value with
  | none => exact routes_ret _ _
  | some e =>
    have hvalue := (structured_asOperand (l.structured_expr e (l.allows_true _) [] .operand) n).1
    exact (hvalue.routes.append (routes_ret _ _)).congr (by simp) (by simp)

theorem routes_stmts {sts : List Stmt}
    (ih : ∀ st ∈ sts, ∀ n,
      Routes m r (l.stmt st n).1 (r ∈ l.returned st.reached) (st.completes = true)) (n : Names) :
    Routes m r (l.stmts sts n).1 (r ∈ l.returned (Stmt.reachedAll sts))
      (Stmt.completesAll sts = true) := by
  induction sts generalizing n with
  | nil =>
    exact routes_nil.congr (by simp [returned, Stmt.reachedAll]) (by simp [Stmt.completesAll])
  | cons st sts ihs =>
    rw [Lowerer.stmts]
    have hfirst := ih st List.mem_cons_self n
    have hrest := ihs (fun st' h ↦ ih st' (List.mem_cons_of_mem st h)) (l.stmt st n).2
    refine (hfirst.append hrest).congr ?_ ?_
    · cases hcompletes : st.completes <;>
        simp [returned, Stmt.reachedAll, hcompletes]
    · simp [Stmt.completesAll]

/-- **The returns reached in a statement are those of the return statements reached in it**, and
control comes to its end if the statement completes. -/
theorem routes_stmt (st : Stmt) : ∀ n,
    Routes m r (l.stmt st n).1 (r ∈ l.returned st.reached) (st.completes = true) := by
  have hplain : ∀ {arrays code}, Structured true arrays code →
      Routes m r code (r ∈ l.returned []) (true = true) :=
    fun h ↦ h.routes.congr (by simp [returned]) (by simp)
  induction st with
  | assign target value span =>
    intro n
    obtain ⟨_, hcode⟩ :=
      l.structured_assign (l.allows_true (l.checker.stmt (.assign target value span))) n
    exact hplain hcode
  | expr e span => exact fun n ↦ hplain (l.structured_exprStmt (l.allows_true (l.checker.expr e)) n)
  | ret value span =>
    exact fun n ↦ (l.routes_ret_stmt value n).congr Iff.rfl (by simp [Stmt.completes])
  | cond test thenBranch elseBranch span iht ihe =>
    intro n
    obtain ⟨bodyLabel, endLabel, n₁, n₂, n₃, heq⟩ := l.stmt_cond test thenBranch elseBranch span n
    rw [heq]
    have htest := (l.structured_expr test (l.allows_true _) [] .condition n₁).1
    have hthen := l.routes_stmts iht n₃
    have helse := l.routes_stmts ihe n₂
    refine (htest.routes.append (routes_diamond helse hthen)).congr ?_ ?_
    · simp only [false_or, true_and, Stmt.reached, returned, List.map_append, List.mem_append]
      exact or_comm
    · simp only [true_and, Stmt.completes, Bool.or_eq_true]
      exact or_comm
  | loop test body span ih =>
    intro n
    obtain ⟨bodyLabel, endLabel, n₁, heq⟩ := l.stmt_loop test body span n
    rw [heq]
    have htest := (l.structured_expr test (l.allows_true _) [] .condition n).1
    exact (htest.routes.append (routes_loop (l.routes_stmts ih n₁))).congr
      (by simp [Stmt.reached]) (by simp [Stmt.completes])

/-- **The returns that are reached in a lowered method** are those of the reached return statements,
and the one that is added at the end if the body completes. -/
theorem reachesReturn_iff (n : Names) (t : Ty) (b : Bool) :
    (l.method n).1.ReachesReturn t b
      ↔ (t = l.returnType ∧ ∃ value ∈ Stmt.reachedAll l.decl.body, value.isSome = b)
        ∨ t = .void ∧ b = false ∧ Stmt.completesAll l.decl.body = true := by
  have hbody : Routes (l.method n).1 (t, b) (l.stmts l.decl.body n).1 _ _ :=
    l.routes_stmts (fun st _ ↦ l.routes_stmt st) n
  have hreached : (t, b) ∈ l.returned (Stmt.reachedAll l.decl.body)
      ↔ t = l.returnType ∧ ∃ value ∈ Stmt.reachedAll l.decl.body, value.isSome = b := by
    simp only [returned, List.mem_map, Prod.mk.injEq]
    constructor
    · rintro ⟨value, hvalue, rfl, rfl⟩
      exact ⟨rfl, value, hvalue, rfl⟩
    · rintro ⟨rfl, value, hvalue, rfl⟩
      exact ⟨value, hvalue, rfl, rfl⟩
  have hcode : Routes (l.method n).1 (t, b) (l.code n)
      ((t, b) ∈ l.returned (Stmt.reachedAll l.decl.body)
        ∨ t = .void ∧ b = false ∧ Stmt.completesAll l.decl.body = true) False := by
    rw [Lowerer.code]
    cases hreturn : l.decl.hasReturn with
    | true =>
      have hcompletes := Stmt.completesAll_of_any_isReturn hreturn
      rw [if_pos rfl, List.append_nil]
      exact hbody.congr (by simp [hcompletes]) (by simp [hcompletes])
    | false =>
      refine (hbody.append (routes_ret .void none)).congr ?_ (by simp)
      simp only [Prod.mk.injEq, Option.isSome_none]
      tauto
  have hplaced := l.placed_method n
  rw [Method.reachesReturn_iff_returns, ← hreached]
  constructor
  · rintro ⟨k, hk⟩
    exact (hcode.sound 0 hplaced k hk).resolve_right (·.1)
  · exact fun h ↦ hcode.complete 0 hplaced (.inl h)

end Lowerer

end Ollir

open Ollir

/-- **Reached returns agree with the declared type if and only if the body does not run out.**  In a
class without violations, the returns that are reached in a lowered method are those of the return
statements that are reached in its body, and one without a value, of type `void`, if control may
come to the end of the body.  So they all have a value, where the declared type is not `void`, if
and only if the body does not complete.  Where it is `void` they all have none if and only if no
reached return statement has an expression, and such an expression is always of type `void`. -/
theorem reached_returns_agree_iff {imports : List ImportDecl} {cls : ClassDecl}
    (hclean : (Analysis.ofClass imports cls).hasErrors = false) {index : Nat} {d : MethodDecl}
    (hd : cls.methods[index]? = some d) :
    let a := Analysis.ofClass imports cls
    let l := a.lowerer d
    ∃ m, (a.lower cls).methods[index]? = some m
      ∧ (∀ t b, m.ReachesReturn t b
        ↔ (t = l.returnType ∧ ∃ value ∈ Stmt.reachedAll d.body, value.isSome = b)
          ∨ t = .void ∧ b = false ∧ Stmt.completesAll d.body = true)
      ∧ (Ty.ofTypeName d.returns ≠ .void →
        ((∀ t b, m.ReachesReturn t b → b = true) ↔ Stmt.completesAll d.body = false))
      ∧ (Ty.ofTypeName d.returns = .void →
        ((∀ t b, m.ReachesReturn t b → b = false) ↔ ∀ value ∈ Stmt.reachedAll d.body, value = none)
          ∧ ∀ e, some e ∈ Stmt.reachedAll d.body → l.site.typeOf e = .void) := by
  intro a l
  obtain ⟨n, hm⟩ := lowerMethods_getElem? a hd {}
  have hreached := l.reachesReturn_iff n
  have hobeys : l.checker.Obeys :=
    l.checker.body_eq_nil_iff.mp (Analysis.body_eq_nil hclean (List.mem_of_getElem? hd))
  have htype : ∀ value ∈ Stmt.reachedAll d.body,
      l.checker.returnedType value = Ty.ofTypeName d.returns := by
    intro value hvalue
    obtain ⟨span, hspan⟩ := Stmt.exists_ret_of_mem_reachedAll
      (fun st _ ↦ Stmt.exists_ret_of_mem_reached) hvalue
    cases value with
    | none => exact (hobeys.retVoid span hspan).symm
    | some e => exact hobeys.ret e span hspan
  refine ⟨_, hm, hreached, fun hreturns ↦ ?_, fun hreturns ↦ ⟨?_, ?_⟩⟩
  · -- a reached return statement has an expression, so only the return at the end may have no value
    have hvalue : ∀ value ∈ Stmt.reachedAll d.body, value.isSome = true := by
      intro value hvalue
      cases value with
      | some e => rfl
      | none => exact absurd (htype none hvalue).symm hreturns
    constructor
    · intro hall
      by_contra hcompletes
      rw [Bool.not_eq_false] at hcompletes
      cases hall .void false ((hreached _ _).mpr (.inr ⟨rfl, rfl, hcompletes⟩))
    · intro hcompletes t b h
      rcases (hreached t b).mp h with ⟨_, value, hmem, rfl⟩ | ⟨_, _, h⟩
      · exact hvalue value hmem
      · exact absurd (hcompletes.symm.trans h) Bool.false_ne_true
  · constructor
    · intro hall value hvalue
      have hnone := hall _ _ ((hreached _ _).mpr (.inl ⟨rfl, value, hvalue, rfl⟩))
      exact Option.isNone_iff_eq_none.mp (Option.isSome_eq_false_iff.mp hnone)
    · intro hnone t b h
      rcases (hreached t b).mp h with ⟨_, value, hmem, rfl⟩ | ⟨_, rfl, _⟩
      · rw [hnone value hmem]
        rfl
      · rfl
  · intro e he
    exact (htype (some e) he).trans hreturns

/-- The statement for a method that is declared to give back an `int`, and has
`if (x < 0) { return 1; } else { while (x < 9) { return x; } return 2; }` as its body.  A return
without a value is added at its end and never reached. -/
theorem reached_returns_agree_iff_branches :
    let x : Expr := .ident "x" {}
    let less (k : Int32) : Expr := .binary .less x (.int k {}) {}
    let int : TypeName := { name := "int" }
    let d : MethodDecl :=
      { name := "f", isPublic := true, isStatic := false, returns := int,
        params := [{ name := "x", type := int }], locals := [],
        body := [.cond (less 0) [.ret (some (.int 1 {})) {}]
          [.loop (less 9) [.ret (some x) {}] {}, .ret (some (.int 2 {})) {}] {}] }
    let cls : ClassDecl := { name := "A", superclass := none, fields := [], methods := [d] }
    let a := Analysis.ofClass [] cls
    a.hasErrors = false ∧ ∃ m, (a.lower cls).methods[0]? = some m
      ∧ m.instrs.getLast? = some (.ret .void none)
      ∧ m.ReachesReturn .int32 true ∧ ∀ t b, m.ReachesReturn t b → t = .int32 ∧ b = true := by
  intro x less int d cls a
  have hclean : a.hasErrors = false := by decide +kernel
  have hd : cls.methods[0]? = some d := rfl
  obtain ⟨m, hm, hreached, hreturns, _⟩ := reached_returns_agree_iff hclean hd
  have hagree := (hreturns (by decide)).mpr (by decide)
  have hlast : ((a.lower cls).methods[0]?.bind fun m ↦ m.instrs.getLast?)
      = some (.ret .void none) := by decide +kernel
  rw [hm] at hlast
  refine ⟨hclean, m, hm, hlast, (hreached _ _).mpr (.inl ⟨rfl, _, List.mem_cons_self, rfl⟩), ?_⟩
  intro t b h
  refine ⟨?_, hagree t b h⟩
  rcases (hreached t b).mp h with ⟨rfl, _⟩ | ⟨_, hb, _⟩
  · rfl
  · rw [hagree t b h] at hb
    cases hb

/-- A method that is declared to give back an `int` passes the checks with the body `x = 2;`, which
runs out.  From its first instruction control comes to a return without a value. -/
theorem body_runs_out :
    let x : Expr := .ident "x" {}
    let int : TypeName := { name := "int" }
    let d : MethodDecl :=
      { name := "f", isPublic := true, isStatic := false, returns := int,
        params := [{ name := "x", type := int }], locals := [],
        body := [.assign x (.int 2 {}) {}] }
    let cls : ClassDecl := { name := "Main", superclass := none, fields := [], methods := [d] }
    let a := Analysis.ofClass [] cls
    a.violations = [] ∧ ∃ m, (a.lower cls).methods = [m] ∧ m.returns = .int32
      ∧ m.ReachesReturn .void false := by
  intro x int d cls a
  let v : Operand := .var "x" .int32
  let set : Instr := .assign v .int32 (.single (.literal 2 .int32))
  let m : Method :=
    { name := "f", isPublic := true, params := [v], returns := .int32,
      instrs := [set, .ret .void none] }
  have hm : (a.lower cls).methods = [m] := by decide +kernel
  have hend : m.Path [set] 1 := .step .start rfl (.inl ⟨rfl, rfl⟩)
  exact ⟨by decide +kernel, m, hm, rfl, _, 1, .ret .void none, hend, rfl, rfl⟩

end Jmm
