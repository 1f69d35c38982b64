import Jmm.Proofs.Emission.Flow

/-!
# The stack limit of emitted methods

`Arrives lines k d` says that control can come to line `k` with `d` operands on the stack, along any
path that the jumps of the lines allow and whatever the tests give.  In emitted code the number of
operands is a function of the line, as code flows (`Flows`) with the labels and counts of emission
(`Arrives.eq_depthAt`), so it never passes the stack limit, which is the largest count.  A run of
the machine is such a path (`arrives_of_steps`).
-/

set_option autoImplicit false

namespace Jmm.Jasmin

open Semantics
open Ollir (Operand Instr Call)

/-! ## Depths -/

/-- The number of operands when control gets to a line of code. -/
def depthAt : Int → List Step → Nat → Int
  | count, [], _ => count
  | count, s :: _, 0 => s.depth count
  | count, s :: ss, k + 1 => depthAt (count + s.effect) ss k

section Depths

variable {E : Expected} {count count' : Int} {live live' : Bool} {code : List Step} {k : Nat}
  {s : Step}

theorem depthAt_zero (h : Flows E count true code count' live') : depthAt count code 0 = count := by
  cases code with
  | nil => rfl
  | cons s code =>
    obtain ⟨hfits, _⟩ := h
    rw [depthAt, Step.depth]
    rw [Step.Fits] at hfits
    split at hfits
    · simp only [hfits.2, Int.add_zero, *]
    · simp only [*]

/-- The depth before a step of code that flows, and after it if control goes on there. -/
theorem Flows.exists_depth (h : Flows E count live code count' live') (hs : code[k]? = some s) :
    ∃ c l, s.Fits E c l ∧ depthAt count code k = s.depth c
      ∧ (s.falls = true → depthAt count code (k + 1) = c + s.effect) := by
  induction code generalizing count live k with
  | nil => exact nomatch hs
  | cons first code ih =>
    obtain ⟨hfits, hrest⟩ := h
    cases k with
    | zero =>
      obtain rfl := Option.some.inj hs
      refine ⟨count, live, hfits, rfl, fun hfalls ↦ ?_⟩
      rw [hfalls] at hrest
      exact depthAt_zero hrest
    | succ k => exact ih hrest hs

theorem mem_labelDepths {x : String} (hs : code[k]? = some s) (hline : s.line = .label x) :
    (x, depthAt count code k) ∈ labelDepths count code := by
  induction code generalizing count k with
  | nil => exact nomatch hs
  | cons first code ih =>
    rw [labelDepths]
    cases k with
    | zero =>
      obtain rfl := Option.some.inj hs
      refine List.mem_append_left _ ?_
      simp [hline, Line.label?, depthAt]
    | succ k => exact List.mem_append_right _ (ih hs)

/-- Where no label stands twice, there is one depth for each. -/
theorem depthAt_eq_of_mem (hnodup : (labelNames code).Nodup) {x : String} {d : Int}
    (hs : code[k]? = some s) (hline : s.line = .label x) (hd : (x, d) ∈ labelDepths count code) :
    depthAt count code k = d := by
  rw [← map_fst_labelDepths count] at hnodup
  exact (Prod.mk.inj (List.inj_on_of_nodup_map hnodup (mem_labelDepths hs hline) hd rfl)).2

theorem le_highest (count : Int) (code : List Step) : count ≤ Step.highest count code := by
  cases code with
  | nil => exact Int.le_refl count
  | cons s code => exact Int.le_max_left _ _

theorem depthAt_le_highest (count : Int) (code : List Step) (k : Nat) :
    depthAt count code k ≤ Step.highest count code := by
  induction code generalizing count k with
  | nil => exact Int.le_refl count
  | cons s code ih =>
    have hnext := Int.le_max_right count (Step.highest (count + s.effect) code)
    cases k with
    | succ k => exact Int.le_trans (ih _ k) hnext
    | zero =>
      rw [depthAt, Step.depth]
      split
      · exact Int.le_trans (le_highest _ code) hnext
      · exact Int.le_max_left _ _

end Depths

/-! ## Paths -/

/-- Control can come to a line with a number of operands on the stack. -/
inductive Arrives (lines : List Line) : Nat → Int → Prop where
  | start : Arrives lines 0 0
  | label {k : Nat} {d : Int} {x : String} (h : Arrives lines k d)
    (hline : lines[k]? = some (.label x)) : Arrives lines (k + 1) d
  | next {k : Nat} {d : Int} {o : Op} (h : Arrives lines k d) (hline : lines[k]? = some (.op o))
    (hfalls : o.fallsThrough = true) : Arrives lines (k + 1) (d - o.pops + o.pushes)
  | jump {k k' : Nat} {d : Int} {o : Op} {x : String} (h : Arrives lines k d)
    (hline : lines[k]? = some (.op o)) (htarget : o.target? = some x)
    (hlabel : lines[k']? = some (.label x)) : Arrives lines k' (d - o.pops + o.pushes)

section Paths

variable {code : List Step} {k : Nat}

theorem getElem?_of_line {l : Line} (h : (code.map Step.line)[k]? = some l) :
    ∃ s, code[k]? = some s ∧ s.line = l := by
  rw [List.getElem?_map] at h
  exact Option.map_eq_some_iff.mp h

variable {instrs : List Instr} {count' : Int} {live' : Bool}
  (hflows : Flows (expected instrs code) 0 true code count' live')

include hflows

/-- An operation finds its operands on the stack, and what it does to it is what was counted. -/
theorem fits_of_op {o : Op} (hline : (code.map Step.line)[k]? = some (.op o)) :
    o.pops ≤ depthAt 0 code k
      ∧ (o.fallsThrough = true →
        depthAt 0 code (k + 1) = depthAt 0 code k - o.pops + o.pushes)
      ∧ (∀ x, o.target? = some x →
        (x, depthAt 0 code k - o.pops + o.pushes) ∈ labelDepths 0 code)
      ∧ ∀ d, o.descriptor? = some d → (expected instrs code).called d := by
  obtain ⟨⟨_, effect⟩, hs, rfl⟩ := getElem?_of_line hline
  obtain ⟨c, l, ⟨hpops, heffect, hjump, hcalled⟩, hdepth, hnext⟩ := hflows.exists_depth hs
  obtain rfl : depthAt 0 code k = c := hdepth
  refine ⟨hpops, fun hfalls ↦ ?_, hjump, hcalled⟩
  have heq := heffect hfalls
  rw [hnext hfalls]
  dsimp only at heq ⊢
  omega

theorem depthAt_after_label {x : String} (hline : (code.map Step.line)[k]? = some (.label x)) :
    depthAt 0 code (k + 1) = depthAt 0 code k := by
  obtain ⟨⟨_, effect⟩, hs, rfl⟩ := getElem?_of_line hline
  obtain ⟨c, l, _, hdepth, hnext⟩ := hflows.exists_depth hs
  rw [hnext rfl, hdepth]
  rfl

/-- **The number of operands is a function of the line**, and is never negative. -/
theorem Arrives.eq_depthAt (hnodup : (labelNames code).Nodup) {d : Int}
    (h : Arrives (code.map Step.line) k d) : 0 ≤ d ∧ d = depthAt 0 code k := by
  induction h with
  | start => exact ⟨Int.le_refl 0, (depthAt_zero hflows).symm⟩
  | label _ hline ih => exact ⟨ih.1, ih.2.trans (depthAt_after_label hflows hline).symm⟩
  | next _ hline hfalls ih =>
    obtain ⟨_, rfl⟩ := ih
    obtain ⟨hpops, hnext, _, _⟩ := fits_of_op hflows hline
    refine ⟨?_, (hnext hfalls).symm⟩
    omega
  | jump _ hline htarget hlabel ih =>
    obtain ⟨_, rfl⟩ := ih
    obtain ⟨hpops, _, hjump, _⟩ := fits_of_op hflows hline
    obtain ⟨s, hs, hs'⟩ := getElem?_of_line hlabel
    refine ⟨?_, (depthAt_eq_of_mem hnodup hs hs' (hjump _ htarget)).symm⟩
    omega

end Paths

/-! ## The machine -/

section Machine

variable {w : World} {lines : List Line} {f f' : Frame} {s s' : Shared}

/-- One frame comes after another by an operation: it takes its operands off the stack, leaves its
results there, and goes to the next line or to a label. -/
structure Op.Moves (o : Op) (lines : List Line) (f f' : Frame) : Prop where
  pops : o.pops ≤ f.stack.length
  stack : f'.stack.length + o.pops = f.stack.length + o.pushes
  line : (o.fallsThrough = true ∧ f'.line = f.line + 1)
    ∨ ∃ x, o.target? = some x ∧ lines[f'.line]? = some (.label x)

theorem jump_eq_ok {x : String} {stack : List Val} {locals : Nat → Val}
    (h : jump lines x stack locals s = .ok (.goto f') s') :
    f'.stack = stack ∧ lines[f'.line]? = some (.label x) := by
  cases hline : labelLine? lines x with
  | none =>
    rw [jump, hline] at h
    cases h
  | some line =>
    rw [jump, hline] at h
    cases h
    obtain ⟨hlt, hlabel, _⟩ := List.findIdx?_eq_some_iff_getElem.mp hline
    exact ⟨rfl, by rw [List.getElem?_eq_getElem hlt, beq_iff_eq.mp hlabel]⟩

theorem Test.eval_eq_ok {test : Test} {x : String} {stack rest : List Val} {holds : Bool}
    (h : test.eval stack s = .ok (holds, rest) s') :
    rest.length + (Op.jumpIf test x).pops = stack.length := by
  match test, stack with
  | .less, .int _ :: .int _ :: _ | .zero, .int _ :: _ | .nonzero, .int _ :: _ =>
    cases h
    rfl

theorem Invocation.target_eq_ok {how : Invocation} {owner : String} {stack rest : List Val}
    {target : Target} (h : how.target owner stack s = .ok (target, rest) s') :
    rest.length + (if how = .static then 0 else 1) = stack.length := by
  match how, stack with
  | .static, _ =>
    cases h
    rfl
  | .virtual, _ :: _ | .special, _ :: _ =>
    cases h
    rfl

theorem length_pushResult (d : MethodDescriptor) (v : Val) (stack : List Val) :
    (d.pushResult v stack).length = stack.length + if d.result = .void then 0 else 1 := by
  rw [MethodDescriptor.pushResult]
  split <;> rfl

/-- **Operations of the machine change the stack as they are counted.** -/
theorem Op.exec_moves {o : Op} (h : o.exec w lines f s = .ok (.goto f') s') :
    o.Moves lines f f' := by
  obtain ⟨line, stack, locals⟩ := f
  cases o with
  | const k | load family slot =>
    cases h
    exact ⟨Nat.zero_le _, rfl, .inl ⟨rfl, rfl⟩⟩
  | increment slot step =>
    cases hslot : locals slot with
    | int n =>
      simp only [Op.exec, hslot] at h
      cases h
      exact ⟨Nat.zero_le _, rfl, .inl ⟨rfl, rfl⟩⟩
    | ref _ | null =>
      simp only [Op.exec, hslot] at h
      cases h
  | new path =>
    obtain ⟨v, s₁, _, h⟩ := Eval.bind_eq_ok h
    cases h
    exact ⟨Nat.zero_le _, rfl, .inl ⟨rfl, rfl⟩⟩
  | goto x =>
    obtain ⟨hstack, hlabel⟩ := jump_eq_ok h
    exact ⟨Nat.zero_le _, congrArg List.length hstack, .inr ⟨x, rfl, hlabel⟩⟩
  | jumpIf test x =>
    obtain ⟨⟨holds, rest⟩, s₁, htest, h⟩ := Eval.bind_eq_ok h
    have hlength := Test.eval_eq_ok (x := x) htest
    dsimp only at hlength h
    split at h
    · obtain ⟨hstack, hlabel⟩ := jump_eq_ok h
      refine ⟨?_, ?_, .inr ⟨x, rfl, hlabel⟩⟩
      · dsimp only
        omega
      · rw [hstack]
        exact hlength
    · cases h
      refine ⟨?_, hlength, .inl ⟨rfl, rfl⟩⟩
      dsimp only
      omega
  | store family slot | pop =>
    cases stack with
    | nil => cases h
    | cons v rest =>
      cases h
      exact ⟨Nat.le_add_left 1 _, rfl, .inl ⟨rfl, rfl⟩⟩
  | newIntArray | arrayLength | getField owner field d =>
    cases stack with
    | nil => cases h
    | cons v rest =>
      obtain ⟨result, s₁, _, h⟩ := Eval.bind_eq_ok h
      cases h
      exact ⟨Nat.le_add_left 1 _, rfl, .inl ⟨rfl, rfl⟩⟩
  | arrayLoad kind | arith op | putField owner field d =>
    obtain _ | ⟨x, _ | ⟨y, rest⟩⟩ := stack
    · cases h
    · cases h
    · obtain ⟨result, s₁, _, h⟩ := Eval.bind_eq_ok h
      cases h
      exact ⟨Nat.le_add_left 2 _, rfl, .inl ⟨rfl, rfl⟩⟩
  | arrayStore kind =>
    obtain _ | ⟨x, _ | ⟨y, _ | ⟨z, rest⟩⟩⟩ := stack
    · cases h
    · cases h
    · cases h
    · obtain ⟨_, s₁, _, h⟩ := Eval.bind_eq_ok h
      cases h
      exact ⟨Nat.le_add_left 3 _, rfl, .inl ⟨rfl, rfl⟩⟩
  | invoke how owner method d =>
    by_cases hargs : stack.length < d.params.length
    · simp only [Op.exec, hargs, if_true] at h
      cases h
    · simp only [Op.exec, hargs, if_false] at h
      obtain ⟨⟨target, rest⟩, s₁, htarget, h⟩ := Eval.bind_eq_ok h
      obtain ⟨v, s₂, _, h⟩ := Eval.bind_eq_ok h
      cases h
      have hrest := Invocation.target_eq_ok htarget
      rw [List.length_drop] at hrest
      refine ⟨?_, ?_, .inl ⟨rfl, rfl⟩⟩
      · simp only [Op.pops]
        omega
      · simp only [Op.pops, Op.pushes, length_pushResult]
        omega
  | ret kind =>
    cases kind with
    | void => cases h
    | int | reference =>
      cases stack with
      | nil | cons v rest => cases h

/-- **A run of the machine is a path.** -/
theorem arrives_of_steps {locals : Nat → Val}
    (h : Steps w lines (.running ⟨0, [], locals⟩ s) (.running f s')) :
    Arrives lines f.line f.stack.length := by
  generalize hst : State.running f s' = st at h
  induction h generalizing f s' with
  | refl =>
    cases hst
    exact .start
  | @tail st st' _ hstep ih =>
    subst hst
    obtain ⟨g, s₁, rfl, ⟨x, hline, rfl⟩ | ⟨o, hline, hexec⟩⟩ := step_eq_running hstep
    · exact (ih rfl).label hline
    · obtain ⟨hpops, hstack, hnext⟩ := Op.exec_moves hexec
      have hdepth : (f.stack.length : Int) = g.stack.length - o.pops + o.pushes := by omega
      rw [hdepth]
      rcases hnext with ⟨hfalls, hnext⟩ | ⟨x, htarget, hlabel⟩
      · rw [hnext]
        exact (ih rfl).next hline hfalls
      · exact (ih rfl).jump hline htarget hlabel

end Machine

/-- **The stack limit is sound on every path.**  Let a lowered class be emitted, with or without
fusion.  However control goes through the lines of a method, it always comes to a line with the same
number of operands on the stack.  No operation takes more than there are, the stack is empty at the
labels of the method, and there are never more operands than the limit says.  A call takes as many
arguments as the call in an instruction of the method that it was emitted for, and leaves a result
if and only if that one has a type other than `void`.  So the stack of the machine stays within the
limit in every run. -/
theorem stackLimit_bounds_paths (a : Analysis) (cls : ClassDecl) {fusion : Bool} {jc : Class}
    (hjc : (a.lower cls).assemble fusion = .ok jc) {k : Nat} {m : Ollir.Method}
    (hm : (a.lower cls).methods[k]? = some m) :
    ∃ jm, jc.methods[k]? = some jm
      ∧ (∀ line d, Arrives jm.lines line d →
        (∀ d', Arrives jm.lines line d' → d' = d)
        ∧ (∀ o, jm.lines[line]? = some (.op o) → o.pops ≤ d)
        ∧ (∀ x ∈ m.labelNames, jm.lines[line]? = some (.label x) → d = 0)
        ∧ 0 ≤ d ∧ d ≤ jm.stackLimit)
      ∧ (∀ how owner method d, .op (.invoke how owner method d) ∈ jm.lines →
        ∃ i ∈ m.instrs, ∃ c, i.call? = some c
          ∧ d.params.length = c.args.length ∧ (d.result = .void ↔ c.returns = .void))
      ∧ ∀ w locals s f s', Steps w jm.lines (.running ⟨0, [], locals⟩ s) (.running f s') →
        f.stack.length ≤ jm.stackLimit := by
  obtain ⟨jm, code, hjm, ⟨hnodup, _, ⟨live', hflows⟩, hempty⟩, hlines, hlimit⟩ :=
    exists_soundCode a cls hjc hm
  have hbound : ∀ {line d}, Arrives jm.lines line d → d ≤ jm.stackLimit := by
    intro line d h
    rw [hlines] at h
    obtain ⟨hnonneg, rfl⟩ := h.eq_depthAt hflows hnodup
    have hle := depthAt_le_highest 0 code line
    rw [hlimit, Step.limit]
    omega
  refine ⟨jm, hjm, fun line d h ↦ ?_, fun how owner method d hline ↦ ?_, fun w locals s f s' h ↦ ?_⟩
  · have hle := hbound h
    rw [hlines] at h ⊢
    obtain ⟨hnonneg, rfl⟩ := h.eq_depthAt hflows hnodup
    refine ⟨fun d' h' ↦ (h'.eq_depthAt hflows hnodup).2, fun o ho ↦ (fits_of_op hflows ho).1,
      fun x hx hline ↦ ?_, hnonneg, hle⟩
    obtain ⟨s, hs, hs'⟩ := getElem?_of_line hline
    exact depthAt_eq_of_mem hnodup hs hs' (hempty x hx)
  · rw [hlines] at hline
    obtain ⟨line, hget⟩ := List.mem_iff_getElem?.mp hline
    exact (fits_of_op hflows hget).2.2.2 d rfl
  · exact Int.ofNat_le.mp (hbound (arrives_of_steps h))

/-- The statement for `b = x < 3; a[0] = x; return x;`.  The store to the array is reached through
the comparison, with as many operands as the limit allows. -/
theorem stackLimit_bounds_paths_comparison :
    let x : Expr := .ident "x" {}
    let int : TypeName := { name := "int" }
    let d : MethodDecl :=
      { name := "put", isPublic := true, isStatic := false, returns := int,
        params := [{ name := "x", type := int },
          { name := "a", type := { int with isArray := true } }],
        locals := [{ name := "b", type := { name := "boolean" } }],
        body := [.assign (.ident "b" {}) (.binary .less x (.int 3 {}) {}) {},
          .assign (.index (.ident "a" {}) (.int 0 {}) {}) x {}, .ret (some x) {}] }
    let cls : ClassDecl := { name := "A", superclass := none, fields := [], methods := [d] }
    ∃ jc jm, ((Analysis.ofClass [] cls).lower cls).assemble true = .ok jc
      ∧ jc.methods[0]? = some jm ∧ jm.stackLimit = 3
      ∧ jm.lines[12]? = some (.op (.arrayStore .int)) ∧ Arrives jm.lines 12 3
      ∧ ∀ line d, Arrives jm.lines line d → d ≤ 3 := by
  intro x int d cls
  let lines : List Line :=
    [.op (.load .int 1), .op (.const 3), .op (.jumpIf .less "cmp_true_0"), .op (.const 0),
      .op (.goto "cmp_end_0"), .label "cmp_true_0", .op (.const 1), .label "cmp_end_0",
      .op (.store .int 3), .op (.load .reference 2), .op (.const 0), .op (.load .int 1),
      .op (.arrayStore .int), .op (.load .int 1), .op (.ret .int)]
  have hshape : (((Analysis.ofClass [] cls).lower cls).assemble true).toOption.bind (fun jc ↦
      jc.methods[0]?.map fun jm ↦ (jm.stackLimit, jm.lines)) = some (3, lines) := by
    decide +kernel
  obtain ⟨m, hm⟩ : ∃ m, ((Analysis.ofClass [] cls).lower cls).methods[0]? = some m := ⟨_, rfl⟩
  cases hjc : ((Analysis.ofClass [] cls).lower cls).assemble true with
  | error f =>
    rw [hjc] at hshape
    cases hshape
  | ok jc =>
    obtain ⟨jm, hjm, hpaths, _⟩ := stackLimit_bounds_paths _ cls hjc hm
    rw [hjc] at hshape
    simp only [Except.toOption, Option.bind_some, hjm, Option.map_some, Option.some.injEq,
      Prod.mk.injEq] at hshape
    obtain ⟨hlimit, hlines⟩ := hshape
    refine ⟨jc, jm, rfl, hjm, hlimit, by rw [hlines]; rfl, ?_, fun line d h ↦ ?_⟩
    · rw [hlines]
      have htest : Arrives lines 2 2 :=
        .next (o := .const 3) (.next (o := .load .int 1) .start rfl rfl) rfl rfl
      have htrue : Arrives lines 5 0 :=
        .jump (o := .jumpIf .less "cmp_true_0") htest rfl rfl rfl
      have hend : Arrives lines 8 1 :=
        .label (.next (o := .const 1) (.label htrue rfl) rfl rfl) rfl
      have hplace : Arrives lines 11 2 :=
        .next (o := .const 0) (.next (o := .load .reference 2)
          (.next (o := .store .int 3) hend rfl rfl) rfl rfl) rfl rfl
      exact .next (o := .load .int 1) hplace rfl rfl
    · have hle := (hpaths line d h).2.2.2.2
      rwa [hlimit] at hle

end Jmm.Jasmin
