import Jmm.Proofs.Lowering.Jumps

/-!
# Generated names among the variables of a method

Temporaries and arrays for packed arguments are assigned to as soon as they are drawn, and nothing
else is assigned to but what the source assigns to.  So the assignments of a lowered method are
those of its statements and, for each name that was drawn while it was lowered, at least one more
(`generated_assignments_iff_drawn`).

The names are drawn from counters and not compared with the names that are declared.  A variable of
the source keeps its value as long as its name was not drawn in the same method, in particular if it
is no generated name at all; the analysis does not exclude that it is
(`temporary_overwrites_local`).
-/

set_option autoImplicit false

namespace Jmm

/-- The names of the parameters and locals of a method. -/
def MethodDecl.variables (d : MethodDecl) : List String :=
  d.params.map (·.name) ++ d.locals.map (·.name)

namespace Ollir

open Semantics

/-! ## Assignments of the source -/

namespace Lowerer

mutual

/-- The variables that a statement assigns to; a field is none. -/
def targets (l : Lowerer) : Stmt → List String
  | .assign (.ident name _) _ _ => if l.scopes.isField name l.decl.name then [] else [name]
  | .cond _ thenBranch elseBranch _ => l.targetsAll elseBranch ++ l.targetsAll thenBranch
  | .loop _ body _ => l.targetsAll body
  | _ => []

/-- The variables that statements assign to. -/
def targetsAll (l : Lowerer) : List Stmt → List String
  | [] => []
  | st :: sts => l.targets st ++ l.targetsAll sts

end

end Lowerer

/-! ## Assignments of lowered code -/

/-- Code made between two states of the counters assigns to given variables and to the ones that
were drawn. -/
structure Assigns (n n' : Names) (targets : List String) (code : List Item) : Prop where
  le : n ≤ n'
  writes : ∃ drawn, (writesOf code).Perm (targets ++ drawn) ∧ ∀ x, x ∈ drawn ↔ n.NewVar n' x

section Assigns

variable {n m n' : Names} {xs ys : List String} {a b : List Item}

theorem Draws.assigns (h : Draws n n' a) : Assigns n n' [] a :=
  ⟨h.le, writesOf a, .refl _, fun x ↦ ⟨h.writes x, h.drawn x⟩⟩

namespace Assigns

theorem nil (n : Names) : Assigns n n [] [] := (Draws.nil n).assigns

theorem append (h : Assigns n m xs a) (h' : Assigns m n' ys b) :
    Assigns n n' (xs ++ ys) (a ++ b) := by
  obtain ⟨hle, drawn, hperm, hdrawn⟩ := h
  obtain ⟨hle', drawn', hperm', hdrawn'⟩ := h'
  refine ⟨hle.trans hle', drawn ++ drawn', ?_, fun x ↦ ?_⟩
  · rw [writesOf_append]
    refine (hperm.append hperm').trans (List.perm_iff_count.mpr fun x ↦ ?_)
    simp only [List.count_append]
    omega
  · rw [List.mem_append, hdrawn, hdrawn']
    refine ⟨?_, fun hnew ↦ hnew.split m⟩
    rintro (hnew | hnew)
    · exact hnew.mono (le_refl n) hle'
    · exact hnew.mono hle (le_refl n')

theorem congr (h : Assigns n n' xs a) (hwrites : writesOf b = writesOf a) : Assigns n n' xs b := by
  refine ⟨h.le, ?_⟩
  rw [hwrites]
  exact h.writes

theorem append_plain (h : Assigns n n' xs a) (hb : writesOf b = []) : Assigns n n' xs (a ++ b) :=
  h.congr (by rw [writesOf_append, hb, List.append_nil])

/-- An assignment of the source may follow. -/
theorem of_draws (h : Draws n n' a) (x : String) (t : Ty) (value : Instr) :
    Assigns n n' [x] (a ++ [assignVar x t value]) := by
  refine ⟨h.le, writesOf a, ?_, fun y ↦ ⟨h.writes y, h.drawn y⟩⟩
  rw [writesOf_append]
  exact List.perm_append_comm

/-- Labels may be drawn before. -/
theorem of_bump {k : NameKind} (hk : k.isLabel = true) (h : Assigns (n.bump k) n' xs a) :
    Assigns n n' xs a := by
  obtain ⟨hle, drawn, hperm, hdrawn⟩ := h
  refine ⟨(Names.le_bump n k).trans hle, drawn, hperm, fun x ↦ ?_⟩
  rw [hdrawn]
  refine ⟨fun hnew ↦ hnew.mono (Names.le_bump n k) (le_refl n'), fun hnew ↦ ?_⟩
  rcases hnew.split (n.bump k) with hnew | hnew
  · exact absurd hnew.of_bump.1 (by simp [hk])
  · exact hnew

end Assigns

end Assigns

theorem write?_of_isCall {i : Instr} (h : i.isCall = true) : Item.write? (.instr i) = none := by
  cases i with
  | call c => rfl
  | _ => exact nomatch h

namespace Lowerer

variable (l : Lowerer)

theorem assigns_assign (target value : Expr) (span : Span) (n : Names) :
    Assigns n (l.assign target value n).2 (l.targets (.assign target value span))
      (l.assign target value n).1 := by
  cases target with
  | ident name nameSpan =>
    rw [Lowerer.assign, targets]
    dsimp only
    split
    · exact ((l.expr_fresh value _).asOperand n).1.assigns.append_plain rfl
    · exact Assigns.of_draws (l.expr_fresh value _ n).1 _ _ _
  | index array position indexSpan =>
    have harray := ((l.expr_fresh array .operand).asVar n).1
    have hposition := ((l.expr_fresh position .operand).asOperand
      (asVar (l.expr array .operand) n).2).1
    exact ((harray.append hposition).append (l.expr_fresh value _ _).1).assigns.append_plain rfl
  | _ => exact (l.expr_fresh value .operand n).1.assigns

theorem assigns_stmts {sts : List Stmt}
    (ih : ∀ st ∈ sts, ∀ n, Assigns n (l.stmt st n).2 (l.targets st) (l.stmt st n).1) (n : Names) :
    Assigns n (l.stmts sts n).2 (l.targetsAll sts) (l.stmts sts n).1 := by
  induction sts generalizing n with
  | nil => exact Assigns.nil n
  | cons st sts ihs =>
    rw [Lowerer.stmts, targetsAll]
    exact (ih st List.mem_cons_self n).append
      (ihs (fun st' h ↦ ih st' (List.mem_cons_of_mem st h)) _)

/-- The code of a statement assigns to its targets and to what was drawn. -/
theorem assigns_stmt (st : Stmt) :
    ∀ n, Assigns n (l.stmt st n).2 (l.targets st) (l.stmt st n).1 := by
  induction st with
  | assign target value span => exact l.assigns_assign target value span
  | expr e span =>
    intro n
    have hcode := (l.expr_fresh e .statement n).1.assigns
    rw [Lowerer.stmt, Lowerer.exprStmt]
    simp only [Draw.bind_apply, Draw.pure_apply]
    split
    · rename_i hcall
      exact hcode.append_plain (writesOf_instr (write?_of_isCall hcall) [])
    · exact hcode
  | ret value span =>
    intro n
    cases value with
    | none => exact (Assigns.nil n).append_plain rfl
    | some e => exact ((l.expr_fresh e .operand).asOperand n).1.assigns.append_plain rfl
  | cond test thenBranch elseBranch span iht ihe =>
    intro n
    rw [Lowerer.stmt, targets]
    simp only [Draw.bind_apply, draw_apply, Draw.pure_apply]
    have htest := (l.expr_fresh test .condition ((n.bump .ifBody).bump .endIf)).1.assigns
    have hcode := (htest.append (l.assigns_stmts ihe _)).append (l.assigns_stmts iht _)
    refine Assigns.of_bump rfl (Assigns.of_bump rfl (hcode.congr ?_))
    simp [writesOf_instr (i := .branch _ _) rfl, writesOf_instr (i := .goto _) rfl]
  | loop test body span ih =>
    intro n
    rw [Lowerer.stmt, targets]
    simp only [Draw.bind_apply, draw_apply, Draw.pure_apply]
    have htest := (l.expr_fresh test .condition n).1.assigns
    have hbody := l.assigns_stmts ih
      (((l.expr test .condition n).2.bump .whileBody).bump .endWhile)
    refine (htest.append (Assigns.of_bump rfl (Assigns.of_bump rfl hbody))).congr ?_
    simp [writesOf_instr (i := .branch _ _) rfl, writesOf_instr (i := .goto _) rfl]

end Lowerer

/-! ## Methods -/

/-- The variables that the instructions of a method assign to. -/
def Method.writes (m : Method) : List String := m.instrs.filterMap Instr.write?

theorem filterMap_instrsOf (code : List Item) :
    (instrsOf code).filterMap Instr.write? = writesOf code := by
  induction code with
  | nil => rfl
  | cons item code ih =>
    cases item with
    | label name => exact ih
    | instr i =>
      rw [instrsOf_instr, List.filterMap_cons, ih, writesOf, writesOf, List.filterMap_cons]
      rfl

theorem Lowerer.assigns_method (l : Lowerer) (n : Names) :
    ∃ drawn, (l.method n).1.writes.Perm (l.targetsAll l.decl.body ++ drawn)
      ∧ ∀ x, x ∈ drawn ↔ n.NewVar (l.method n).2 x := by
  have hbody : Assigns n (l.stmts l.decl.body n).2 (l.targetsAll l.decl.body) _ :=
    l.assigns_stmts (fun st _ ↦ l.assigns_stmt st) n
  have hcode : writesOf (l.code n) = writesOf (l.stmts l.decl.body n).1 := by
    rw [Lowerer.code, writesOf_append]
    cases l.decl.hasReturn <;> simp [writesOf_instr (i := .ret _ _) rfl]
  rw [Method.writes, l.instrs_method, filterMap_instrsOf, hcode]
  exact hbody.writes

/-- A method of a class is lowered with the counters that those before it leave. -/
theorem lowerMethods_take (a : Analysis) {ds : List MethodDecl} {i : Nat} {d : MethodDecl}
    (h : ds[i]? = some d) (n : Names) :
    (lowerMethods a ds n).1[i]?
        = some ((a.lowerer d).method (lowerMethods a (ds.take i) n).2).1
      ∧ (lowerMethods a (ds.take (i + 1)) n).2
        = ((a.lowerer d).method (lowerMethods a (ds.take i) n).2).2 := by
  induction ds generalizing i n with
  | nil => exact nomatch h
  | cons first rest ih =>
    cases i with
    | zero =>
      obtain rfl := Option.some.inj h
      exact ⟨rfl, rfl⟩
    | succ i => exact ih h _

/-- **Generated assignments go to the names that were drawn.**  The assignments to variables in a
lowered method are those of the source and some that lowering adds.  A variable is assigned to by
one that was added if and only if its name was drawn while the method was lowered, from the counters
that the methods before it left.  This is never a parameter or local of the method if none of
them has a name that lowering could give. -/
theorem generated_assignments_iff_drawn (a : Analysis) (cls : ClassDecl) {i : Nat} {d : MethodDecl}
    (hd : cls.methods[i]? = some d) :
    let n := (lowerMethods a (cls.methods.take i) {}).2
    let n' := (lowerMethods a (cls.methods.take (i + 1)) {}).2
    ∃ m generated, (a.lower cls).methods[i]? = some m
      ∧ m.writes.Perm ((a.lowerer d).targetsAll d.body ++ generated)
      ∧ (∀ x, x ∈ generated ↔ n.NewVar n' x)
      ∧ ((∀ x ∈ d.variables, ¬ IsGenerated x) → ∀ x ∈ d.variables, x ∉ generated) := by
  intro n n'
  obtain ⟨hm, hnext⟩ := lowerMethods_take a hd {}
  obtain ⟨generated, hperm, hdrawn⟩ := (a.lowerer d).assigns_method n
  have hdrawn' : ∀ x, x ∈ generated ↔ n.NewVar n' x := by
    intro x
    rw [hdrawn]
    show _ ↔ n.NewVar (lowerMethods a (cls.methods.take (i + 1)) {}).2 x
    rw [hnext]
  refine ⟨_, generated, hm, hperm, hdrawn', fun hplain x hx hmem ↦ ?_⟩
  exact hplain x hx ((hdrawn' x).mp hmem).isGenerated

/-- The statement for `s = 5; a = (a + b) * 2; return a + s;`, where three temporaries are drawn and
none is a variable of the method. -/
theorem generated_assignments_iff_drawn_scale :
    let x (name : String) : Expr := .ident name {}
    let int : TypeName := { name := "int" }
    let d : MethodDecl :=
      { name := "scale", isPublic := true, isStatic := false, returns := int,
        params := [{ name := "a", type := int }, { name := "b", type := int }],
        locals := [{ name := "s", type := int }],
        body := [.assign (x "s") (.int 5 {}) {},
          .assign (x "a") (.binary .mul (.binary .add (x "a") (x "b") {}) (.int 2 {}) {}) {},
          .ret (some (.binary .add (x "a") (x "s") {})) {}] }
    let cls : ClassDecl := { name := "Main", superclass := none, fields := [], methods := [d] }
    ∃ m generated, ((Analysis.ofClass [] cls).lower cls).methods[0]? = some m
      ∧ m.writes = ["s", "tmp0", "tmp1", "a", "tmp2"]
      ∧ m.writes.Perm (["s", "a"] ++ generated) ∧ ∀ y ∈ d.variables, y ∉ generated := by
  intro x int d cls
  have hplain : ∀ y ∈ d.variables, ¬ IsGenerated y := by
    intro y hy h
    have hhead : ∀ y ∈ d.variables, y.toList.head? ≠ some 't' ∧ y.toList.head? ≠ some '_' := by
      decide
    exact h.head?.elim (hhead y hy).1 (hhead y hy).2
  obtain ⟨m, generated, hm, hperm, _, h⟩ :=
    generated_assignments_iff_drawn (Analysis.ofClass [] cls) cls (i := 0) (d := d) rfl
  have hwrites : (((Analysis.ofClass [] cls).lower cls).methods[0]?.map Method.writes)
      = some ["s", "tmp0", "tmp1", "a", "tmp2"] := by
    decide +kernel
  rw [hm] at hwrites
  exact ⟨m, generated, hm, Option.some.inj hwrites, hperm, h hplain⟩

/-- **A temporary can overwrite a local.**  In `tmp0 = 5; a = (a + b) * 2; return a + tmp0;`, which
has no violations, the sum is stored in the temporary `tmp0`.  Called with one and two, the method
gives back 11, and its lowered code 9. -/
theorem temporary_overwrites_local :
    let x (name : String) : Expr := .ident name {}
    let int : TypeName := { name := "int" }
    let d : MethodDecl :=
      { name := "scale", isPublic := true, isStatic := false, returns := int,
        params := [{ name := "a", type := int }, { name := "b", type := int }],
        locals := [{ name := "tmp0", type := int }],
        body := [.assign (x "tmp0") (.int 5 {}) {},
          .assign (x "a") (.binary .mul (.binary .add (x "a") (x "b") {}) (.int 2 {}) {}) {},
          .ret (some (.binary .add (x "a") (x "tmp0") {})) {}] }
    let cls : ClassDecl := { name := "Main", superclass := none, fields := [], methods := [d] }
    let an := Analysis.ofClass [] cls
    let c : Context := ⟨fun _ h ↦ (.ok .null, h), id, .ref 0⟩
    let env : Env := fun y ↦ .int (if y = "a" then 1 else 2)
    an.violations = [] ∧ "tmp0" ∈ d.variables
      ∧ Names.NewVar {} (lowerMethods an cls.methods {}).2 "tmp0"
      ∧ (∃ env', Exec (an.lowerer d).site c (.block d.body) env default
        (.returned (some (.int 11))) env' default)
      ∧ ∃ m env', (an.lower cls).methods[0]? = some m
        ∧ m.writes = ["tmp0", "tmp0", "tmp1", "a", "tmp2"]
        ∧ m.Steps c (.running 0 env default) (.returned (some (.int 9)) env' default) := by
  intro x int d cls an c env
  let y (name : String) : Operand := .var name .int32
  let sum (name left right : String) : Instr :=
    .assign (y name) .int32 (.binary .add (y left) (y right) .int32)
  let m : Method :=
    { name := "scale", isPublic := true, params := [y "a", y "b"], returns := .int32,
      instrs := [.assign (y "tmp0") .int32 (.single (.literal 5 .int32)), sum "tmp0" "a" "b",
        .assign (y "tmp1") .int32 (.binary .mul (y "tmp0") (.literal 2 .int32) .int32),
        .assign (y "a") .int32 (.single (y "tmp1")), sum "tmp2" "a" "tmp0",
        .ret .int32 (some (y "tmp2"))] }
  have hm : (an.lower cls).methods[0]? = some m := by decide +kernel
  have hdrawn : Names.NewVar {} (lowerMethods an cls.methods {}).2 "tmp0" :=
    ⟨.temp, 0, rfl, by decide, by decide +kernel, by decide⟩
  have hexec : Exec (an.lowerer d).site c (.block d.body) env default
      (.returned (some (.int 11))) ((env.set "tmp0" (.int 5)).set "a" (.int 6)) default :=
    .cons (.assign rfl) (.cons (.assign rfl) (.consLeft (.ret rfl) nofun))
  have hsteps : m.Steps c (.running 0 env default) (.returned (some (.int 9))
      (((((env.set "tmp0" (.int 5)).set "tmp0" (.int 3)).set "tmp1" (.int 6)).set "a" (.int 6)).set
        "tmp2" (.int 9)) default) :=
    .head rfl (.head rfl (.head rfl (.head rfl (.head rfl (.head rfl .refl)))))
  exact ⟨by decide +kernel, by decide, hdrawn, ⟨_, hexec⟩, m, _, hm, by decide, hsteps⟩

end Ollir
end Jmm
