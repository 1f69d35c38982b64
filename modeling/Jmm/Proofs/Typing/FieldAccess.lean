import Jmm.Proofs.Lowering.Events
import Jmm.Proofs.Typing.Independence

/-!
# Accesses to fields

A name that means a field is read from the receiver where it is used and written to it where it is
assigned.  The type in the instruction comes from what the name means in the method; the fields of
the class are listed without regard to it, from the declarations.  `field_accesses_linked` says that
both fit together: an access names a field of the class, with its type.

* `Stmt.usesAll` lists the names that a body reads and assigns to, and `Lowerer.access?` says which
  of them access a field.  These are the accesses of the lowered code
  (`Lowerer.accesses_method`).
* `Analysis.field_of_isField` goes back from a name that means a field to its declaration.  Of
  fields of one name the first declaration gives the type, also where only a later one is entered
  because the first is a vararg.
* A parameter or local hides a field of its name (`Analysis.isField_eq_false`).
-/

set_option autoImplicit false

namespace Jmm

/-! ## Names in use -/

namespace Expr

mutual

/-- The names in an expression, in the order of the text. -/
def names : Expr → List String
  | .int _ _ | .bool _ _ | .self _ | .newObject _ _ => []
  | .ident name _ => [name]
  | .paren inner _ => names inner
  | .arrayLit elements _ => namesAll elements
  | .not operand _ => names operand
  | .index array position _ => names array ++ names position
  | .binary _ left right _ => names left ++ names right
  | .call receiver _ args _ => names receiver ++ namesAll args
  | .newArray _ size _ => names size
  | .length array _ => names array

/-- The names in expressions. -/
def namesAll : List Expr → List String
  | [] => []
  | e :: es => names e ++ namesAll es

end

/-- The names that are read before a target is assigned to. -/
def targetNames : Expr → List String
  | .index array position _ => names array ++ names position
  | _ => []

/-- The names that an expression reads. -/
def uses (e : Expr) : List NameUse := e.names.map .read

theorem namesAll_eq_flatMap (es : List Expr) : namesAll es = es.flatMap names := by
  induction es with
  | nil => rfl
  | cons e es ih => rw [namesAll, List.flatMap_cons, ih]

theorem map_read_namesAll (es : List Expr) :
    (namesAll es).map NameUse.read = es.flatMap uses := by
  rw [namesAll_eq_flatMap, List.map_flatMap]
  rfl

/-- The names that are read before a target is assigned to. -/
def targetUses (target : Expr) : List NameUse := target.targetNames.map .read

/-- The name that is assigned to. -/
def targetWrites : Expr → List NameUse
  | .ident name _ => [.write name]
  | _ => []

end Expr

namespace Stmt

mutual

/-- The names that a statement reads.  Of a conditional the second branch comes first. -/
def names : Stmt → List String
  | .assign target value _ => target.targetNames ++ value.names
  | .expr e _ => e.names
  | .ret none _ => []
  | .ret (some e) _ => e.names
  | .cond test thenBranch elseBranch _ => test.names ++ namesAll elseBranch ++ namesAll thenBranch
  | .loop test body _ => test.names ++ namesAll body

/-- The names that statements read. -/
def namesAll : List Stmt → List String
  | [] => []
  | st :: sts => names st ++ namesAll sts

end

mutual

/-- The names that a statement reads and assigns to.  Of a conditional the second branch comes
first. -/
def uses : Stmt → List NameUse
  | .assign target value _ => target.targetUses ++ value.uses ++ target.targetWrites
  | .expr e _ => e.uses
  | .ret none _ => []
  | .ret (some e) _ => e.uses
  | .cond test thenBranch elseBranch _ => test.uses ++ usesAll elseBranch ++ usesAll thenBranch
  | .loop test body _ => test.uses ++ usesAll body

/-- The names that statements read and assign to. -/
def usesAll : List Stmt → List NameUse
  | [] => []
  | st :: sts => uses st ++ usesAll sts

end

end Stmt

namespace Ollir

/-! ## Accesses in lowered code -/

/-- The access that an instruction makes, in its value if it is an assignment or a branch. -/
def Instr.access? : Instr → Option FieldAccess
  | assign _ _ value => value.access?
  | branch test _ => test.access?
  | getField object field type => some ⟨object, field, type, false⟩
  | putField object field type _ => some ⟨object, field, type, true⟩
  | _ => none

/-- The access of an event. -/
def Event.access? : Event → Option FieldAccess
  | access field => some field
  | _ => none

/-- The access of an instruction is among its events. -/
theorem Instr.filterMap_access_events (i : Instr) :
    i.events.filterMap Event.access? = i.access?.toList := by
  have hoperand : ∀ o : Operand, o.events.filterMap Event.access? = [] :=
    Operand.filterMap_events fun _ ↦ rfl
  have hchanges : ∀ ts, (changes ts).filterMap Event.access? = [] := filterMap_changes fun _ ↦ rfl
  induction i with
  | assign target type value ih =>
    cases target with
    | element name index t =>
      rw [events, List.filterMap_append, List.filterMap_append, hoperand,
        List.filterMap_cons_none rfl, hchanges, ih]
      exact List.append_nil _
    | _ =>
      rw [events, List.filterMap_append, hchanges, ih]
      · exact List.append_nil _
      · exact fun _ _ _ h ↦ Operand.noConfusion h
  | branch test label ih => exact ih
  | call c =>
    have hcall : c.events.filterMap Event.access? = _ := c.filterMap_events fun _ ↦ rfl
    rw [events, hcall]
    cases c.linkage? <;> rfl
  | ret type value =>
    cases value with
    | none => rfl
    | some o =>
      rw [events, List.filterMap_append, hoperand, hchanges]
      rfl
  | single o | not o =>
    rw [events, hoperand]
    rfl
  | goto label => rfl
  | _ =>
    simp only [events, List.filterMap_append, hoperand, hchanges]
    rfl

namespace Lowerer

variable (l : Lowerer)

/-! ### Events -/

theorem filterMap_access_accessEvents (u : NameUse) :
    (l.accessEvents u).filterMap Event.access? = [u].filterMap l.access? := by
  cases h : l.access? u <;> simp [accessEvents, h, Event.access?]

theorem filterMap_access_elementEvents {es : List Expr}
    (ih : ∀ e ∈ es, ∀ use,
      (l.exprEvents e use).filterMap Event.access? = e.uses.filterMap l.access?) (element : Ty) :
    (l.elementEvents element es).filterMap Event.access?
      = (es.flatMap Expr.uses).filterMap l.access? := by
  induction es with
  | nil => rfl
  | cons e es ihes =>
    obtain ⟨hfirst, hrest⟩ := List.forall_mem_cons.mp ih
    rw [elementEvents, List.flatMap_cons, List.filterMap_append, List.filterMap_append, hfirst,
      ihes hrest, List.filterMap_cons_none rfl, filterMap_changes fun _ ↦ rfl, List.append_nil,
      List.filterMap_append]

theorem filterMap_access_argEvents {es : List Expr}
    (ih : ∀ e ∈ es, ∀ use,
      (l.exprEvents e use).filterMap Event.access? = e.uses.filterMap l.access?)
    (formals : List (Ty × Bool)) (position : Nat) :
    (l.argEvents formals position es).filterMap Event.access?
      = (es.flatMap Expr.uses).filterMap l.access? := by
  induction es generalizing position with
  | nil => rfl
  | cons e es ihes =>
    obtain ⟨hfirst, hrest⟩ := List.forall_mem_cons.mp ih
    rw [argEvents, List.flatMap_cons, List.filterMap_append, hfirst, ihes hrest,
      List.filterMap_append]

theorem filterMap_access_exprEvents (e : Expr) : ∀ use,
    (l.exprEvents e use).filterMap Event.access? = e.uses.filterMap l.access? := by
  induction e with
  | int | bool | self => exact fun _ ↦ rfl
  | ident name span => exact fun _ ↦ l.filterMap_access_accessEvents (.read name)
  | paren inner span ih => exact fun use ↦ ih use.inParens
  | arrayLit elements span ih =>
    intro _
    rw [Expr.uses, Expr.names, Expr.map_read_namesAll]
    exact l.filterMap_access_elementEvents ih .int32
  | not operand span ih | length operand span ih => exact fun _ ↦ ih .operand
  | newArray element size span ih =>
    intro _
    rw [exprEvents, List.filterMap_append, ih]
    exact List.append_nil _
  | index array position span iha ihp =>
    intro _
    rw [exprEvents, List.filterMap_append, List.filterMap_append, iha, ihp,
      ← List.filterMap_append, Expr.uses, Expr.uses, ← List.map_append]
    exact List.append_nil _
  | binary op left right span ihl ihr =>
    intro _
    rw [exprEvents, List.filterMap_append, List.filterMap_append, ihl, ihr,
      filterMap_changes fun _ ↦ rfl, List.append_nil, ← List.filterMap_append, Expr.uses,
      Expr.uses, ← List.map_append]
    rfl
  | call receiver method args span ihr iha =>
    intro _
    have hargs : (l.callArgEvents (l.formals receiver method) args).filterMap Event.access?
        = (args.flatMap Expr.uses).filterMap l.access? := by
      rw [callArgEvents]
      cases l.packedType? (l.formals receiver method) args with
      | none => exact l.filterMap_access_argEvents iha _ 0
      | some element => exact l.filterMap_access_elementEvents iha element
    rw [exprEvents_call, List.filterMap_append, List.filterMap_append, ihr, hargs,
      ← List.filterMap_append, Expr.uses, Expr.uses, Expr.names, List.map_append,
      Expr.map_read_namesAll]
    exact List.append_nil _
  | newObject className span =>
    intro _
    rw [exprEvents]
    split <;> rfl

theorem filterMap_access_valueEvents (e : Expr) :
    (valueEvents e).filterMap Event.access? = [] := by
  induction e with
  | paren inner span ih => exact ih
  | _ => rfl

theorem filterMap_access_assignEvents (target value : Expr) :
    (l.assignEvents target value).filterMap Event.access?
      = (target.targetUses ++ value.uses ++ target.targetWrites).filterMap l.access? := by
  have hchanges : ∀ ts, (changes ts).filterMap Event.access? = [] := filterMap_changes fun _ ↦ rfl
  cases target with
  | ident name span =>
    rw [assignEvents, List.filterMap_append, List.filterMap_append, l.filterMap_access_exprEvents,
      l.filterMap_access_accessEvents, hchanges, List.append_nil, ← List.filterMap_append]
    rfl
  | index array position span =>
    have htarget : (Expr.index array position span).targetUses = array.uses ++ position.uses :=
      List.map_append
    simp only [assignEvents, htarget, Expr.targetWrites, List.filterMap_append,
      l.filterMap_access_exprEvents, List.filterMap_cons, Event.access?, hchanges, List.append_nil]
  | _ =>
    have htotal := l.filterMap_access_exprEvents value .operand
    rw [← l.keptEvents_append_value, List.filterMap_append, filterMap_access_valueEvents,
      List.append_nil] at htotal
    exact htotal.trans (congrArg (List.filterMap l.access?) (List.append_nil _).symm)

theorem filterMap_access_stmts {sts : List Stmt}
    (ih : ∀ st ∈ sts, (l.stmtEvents st).filterMap Event.access? = st.uses.filterMap l.access?) :
    (l.bodyEvents sts).filterMap Event.access? = (Stmt.usesAll sts).filterMap l.access? := by
  induction sts with
  | nil => rfl
  | cons st sts ihs =>
    obtain ⟨hfirst, hrest⟩ := List.forall_mem_cons.mp ih
    rw [bodyEvents, Stmt.usesAll, List.filterMap_append, hfirst, ihs hrest, List.filterMap_append]

theorem filterMap_access_stmtEvents (st : Stmt) :
    (l.stmtEvents st).filterMap Event.access? = st.uses.filterMap l.access? := by
  induction st with
  | assign target value span => exact l.filterMap_access_assignEvents target value
  | expr e span => exact l.filterMap_access_exprEvents e .statement
  | ret value span =>
    cases value with
    | none => rfl
    | some e =>
      rw [stmtEvents, Stmt.uses, List.filterMap_append, l.filterMap_access_exprEvents,
        filterMap_changes fun _ ↦ rfl, List.append_nil]
  | cond test thenBranch elseBranch span iht ihe =>
    rw [stmtEvents, Stmt.uses, List.filterMap_append, List.filterMap_append,
      l.filterMap_access_exprEvents, l.filterMap_access_stmts ihe, l.filterMap_access_stmts iht,
      List.filterMap_append, List.filterMap_append]
  | loop test body span ih =>
    rw [stmtEvents, Stmt.uses, List.filterMap_append, List.filterMap_append,
      l.filterMap_access_exprEvents, l.filterMap_access_stmts ih, filterMap_access_valueEvents,
      List.filterMap_append, List.append_nil]

/-- **A lowered method accesses the fields that its body names**, in their order. -/
theorem accesses_method (n : Names) :
    (l.method n).1.instrs.filterMap Instr.access?
      = (Stmt.usesAll l.decl.body).filterMap l.access? := by
  rw [← l.filterMap_access_stmts fun st _ ↦ l.filterMap_access_stmtEvents st, ← l.events_method n,
    List.filterMap_flatMap, List.filterMap_eq_flatMap_toList]
  exact congrArg (List.flatMap · _) (funext fun i : Instr ↦ i.filterMap_access_events.symm)

end Lowerer
end Ollir

/-! ## Fields of the class -/

theorem SymbolTable.name_of_field? {t : SymbolTable} {name : String} {f : Symbol}
    (h : t.field? name = some f) : f.name = name := by
  have hfound := List.find?_some h
  exact beq_iff_eq.mp hfound

namespace Scopes

theorem eq_ofField {t : SymbolTable} {d : VarDecl} {e : ScopeEntry}
    (h : e ∈ (ofField t d).entries) :
    ∃ f, t.field? d.name = some f ∧ e = ⟨f.name, .field, none, f.type, false⟩ := by
  rw [ofField] at h
  split at h
  · exact absurd h List.not_mem_nil
  · split at h
    · rename_i f hf
      exact ⟨f, hf, List.mem_singleton.mp h⟩
    · exact absurd h List.not_mem_nil

/-- What a name that means a field is found as.  The method owns no variable of the name. -/
theorem lookup_of_isField {s : Scopes} {name method : String} (h : s.isField name method = true) :
    (∃ e ∈ s.entries, e.name = name ∧ e.kind = .field ∧ s.lookup name method = some e)
      ∧ ∀ e ∈ s.entries, e.name = name → e.isOwnedBy method = false := by
  rw [isField] at h
  split at h
  · rename_i e he
    have hlookup := he
    rw [lookup] at he
    rcases Option.or_eq_some_iff.mp he with howned | ⟨hnone, hfound⟩
    · have hkind := List.find?_some howned
      simp only [ScopeEntry.isOwnedBy, Bool.and_eq_true, bne_iff_ne] at hkind
      exact absurd (beq_iff_eq.mp h) hkind.1
    · obtain ⟨hmem, hname⟩ := List.mem_filter.mp (List.mem_of_find?_eq_some hfound)
      refine ⟨⟨e, List.mem_reverse.mp hmem, beq_iff_eq.mp hname, beq_iff_eq.mp h, hlookup⟩, ?_⟩
      intro e' he' hname'
      refine Bool.eq_false_iff.mpr (List.find?_eq_none.mp hnone e' ?_)
      exact List.mem_filter.mpr ⟨List.mem_reverse.mpr he', beq_iff_eq.mpr hname'⟩
  · cases h

end Scopes

namespace Analysis

variable {imports : List ImportDecl} {cls : ClassDecl} {x method : String}

theorem mem_entries_cases {e : ScopeEntry} (h : e ∈ (ofClass imports cls).scopes.entries) :
    (∃ v ∈ cls.fields, e ∈ (Scopes.ofField (ofClass imports cls).table v).entries)
      ∨ ∃ d ∈ cls.methods, e ∈ (Scopes.ofMethod (ofClass imports cls).table d).entries := by
  refine (List.mem_append.mp h).imp (fun h ↦ ?_) fun h ↦ ?_
  all_goals
    rw [Scopes.entries_concat, List.flatMap_map] at h
    exact List.mem_flatMap.mp h

/-- A name that means a field is declared as one, and has the type of its first declaration. -/
theorem field_of_isField (h : (ofClass imports cls).scopes.isField x method = true) :
    ∃ v ∈ cls.fields, v.name = x ∧ ∃ f, (ofClass imports cls).table.field? x = some f
      ∧ (ofClass imports cls).scopes.lookup x method
        = some ⟨f.name, .field, none, f.type, false⟩ := by
  obtain ⟨⟨e, he, rfl, hkind, hlookup⟩, _⟩ := Scopes.lookup_of_isField h
  rcases mem_entries_cases he with ⟨v, hv, hentry⟩ | ⟨d, _, hentry⟩
  · obtain ⟨f, hf, rfl⟩ := Scopes.eq_ofField hentry
    have hname := SymbolTable.name_of_field? hf
    exact ⟨v, hv, hname.symm, f, by rw [hname, hf], hlookup⟩
  · exact absurd hkind (Scopes.kind_ofMethod hentry)

theorem isVararg_of_isField (h : (ofClass imports cls).scopes.isField x method = true) :
    (ofClass imports cls).scopes.isVararg x method = false := by
  refine List.any_eq_false.mpr fun e he hvararg ↦ ?_
  simp only [Bool.and_eq_true, beq_iff_eq] at hvararg
  have hfree := (Scopes.lookup_of_isField h).2 e he hvararg.1.1
  rcases mem_entries_cases he with ⟨v, _, hentry⟩ | ⟨d, _, hentry⟩
  · have howner := Scopes.entries_ofField hentry
    rw [hvararg.1.2] at howner
    cases howner
  · simp [ScopeEntry.isOwnedBy, hvararg.1.2, Scopes.kind_ofMethod hentry] at hfree

/-- The lowered class has the field that the table finds under a declared name. -/
theorem field?_lower {v : VarDecl} (hv : v ∈ cls.fields) {f : Symbol}
    (hf : (ofClass imports cls).table.field? v.name = some f) :
    ∃ g, ((ofClass imports cls).lower cls).field? v.name = some g
      ∧ g.type = Ollir.Ty.ofTy f.type := by
  have hsome : (((ofClass imports cls).lower cls).field? v.name).isSome = true := by
    have hlisted := congrArg (Option.map fun f ↦ (⟨f.name, Ollir.Ty.ofTy f.type,
      (ofClass imports cls).table.isPrivateField f.name⟩ : Ollir.Field)) hf
    exact List.find?_isSome.mpr ⟨_, List.mem_filterMap.mpr ⟨v, hv, hlisted⟩,
      beq_iff_eq.mpr (SymbolTable.name_of_field? hf)⟩
  obtain ⟨g, hg⟩ := Option.isSome_iff_exists.mp hsome
  refine ⟨g, hg, ?_⟩
  -- the field that is found need not stand for this declaration, but repeats the same one
  obtain ⟨w, _, hw⟩ := List.mem_filterMap.mp (List.mem_of_find?_eq_some hg)
  obtain ⟨f', hf', rfl⟩ := Option.map_eq_some_iff.mp hw
  have hname : f'.name = v.name := by simpa using List.find?_some hg
  rw [← SymbolTable.name_of_field? hf', hname] at hf'
  rw [Option.some.inj (hf'.symm.trans hf)]

/-- **A parameter or local hides a field of its name.** -/
theorem isField_eq_false (hmethods : (cls.methods.map MethodDecl.name).Nodup) {d : MethodDecl}
    (hd : d ∈ cls.methods)
    (hx : (∃ p ∈ d.params, p.name = x) ∨ ∃ v ∈ d.locals, v.name = x ∧ v.type.isVararg = false) :
    (ofClass imports cls).scopes.isField x d.name = false := by
  by_contra hfield
  have hfree := (Scopes.lookup_of_isField ((Bool.not_eq_false _).mp hfield)).2
  rcases hx with ⟨p, hp, rfl⟩ | ⟨v, hv, rfl, hvararg⟩
  · have howned := hfree _ (mem_entries_param hmethods hd hp) rfl
    simp [ScopeEntry.isOwnedBy, Scopes.ofParam] at howned
  · have howned := hfree _ (mem_entries_local hmethods hd hv hvararg) rfl
    simp [ScopeEntry.isOwnedBy] at howned

end Analysis

/-! ## Linked accesses -/

namespace Ollir.Lowerer

/-- An access is made to a field of the receiver, under the name that it has in the method. -/
theorem access?_eq_some {l : Lowerer} {u : NameUse} {access : FieldAccess}
    (h : l.access? u = some access) :
    access.object = l.receiver ∧ access.type = l.nameType access.field
      ∧ l.scopes.isField access.field l.decl.name = true := by
  cases u with
  | read name =>
    obtain ⟨hread, heq⟩ := Option.ite_none_right_eq_some.mp h
    obtain rfl := Option.some.inj heq
    exact ⟨rfl, rfl, ((Bool.and_eq_true _ _).mp hread).2⟩
  | write name =>
    obtain ⟨hfield, heq⟩ := Option.ite_none_right_eq_some.mp h
    obtain rfl := Option.some.inj heq
    exact ⟨rfl, rfl, hfield⟩

end Ollir.Lowerer

open Ollir

/-- In a class without a field that has the name of an import, a name that means a field has the
type of the field in the lowered class. -/
theorem Analysis.nameType_of_isField {imports : List ImportDecl} {cls : ClassDecl}
    (hfields : ∀ v ∈ cls.fields, (SymbolTable.ofClass imports cls).isImport v.name = false)
    {d : MethodDecl} {x : String}
    (h : (ofClass imports cls).scopes.isField x d.name = true) :
    ∃ f, ((ofClass imports cls).lower cls).field? x = some f
      ∧ ((ofClass imports cls).lowerer d).nameType x = f.type := by
  obtain ⟨v, hv, rfl, f, hf, hlookup⟩ := field_of_isField h
  obtain ⟨g, hg, htype⟩ := field?_lower hv hf
  have hident : ((ofClass imports cls).lowerer d).site.identType v.name = f.type :=
    Site.identType_of_lookup (e := ⟨f.name, .field, none, f.type, false⟩) (hfields v hv) hlookup
  have hvararg : ((ofClass imports cls).lowerer d).scopes.isVararg v.name
      ((ofClass imports cls).lowerer d).decl.name = false := isVararg_of_isField h
  exact ⟨g, hg, by rw [Lowerer.nameType, hident, hvararg, htype, Ty.ofBinding_false]⟩

/-- **Accesses to fields are linked to the fields of the class.**  Let no field have the name of an
import.  Every instruction of the lowered class that reads or writes a field does so on the
receiver, and names a field of the class with the type that the field has.  The accesses of a method
are those that the names in its body ask for, one by one; if the methods have different names, a
parameter, or a local that is no vararg, hides the field of its name.  The class need not pass the
checks. -/
theorem field_accesses_linked {imports : List ImportDecl} {cls : ClassDecl}
    (hfields : ∀ v ∈ cls.fields, (SymbolTable.ofClass imports cls).isImport v.name = false) :
    let a := Analysis.ofClass imports cls
    let unit := a.lower cls
    (∀ m ∈ unit.methods, ∀ access ∈ m.instrs.filterMap Instr.access?,
        access.object = .receiver unit.name
          ∧ ∃ f, unit.field? access.field = some f ∧ access.type = f.type)
      ∧ ∀ (index : Nat) (d : MethodDecl), cls.methods[index]? = some d →
        ∃ m, unit.methods[index]? = some m
        ∧ m.instrs.filterMap Instr.access?
          = (Stmt.usesAll d.body).filterMap (a.lowerer d).access?
        ∧ ((cls.methods.map MethodDecl.name).Nodup → ∀ x,
          ((∃ p ∈ d.params, p.name = x) ∨ ∃ v ∈ d.locals, v.name = x ∧ v.type.isVararg = false) →
          ∀ access ∈ m.instrs.filterMap Instr.access?, access.field ≠ x) := by
  intro a unit
  have haccess : ∀ d n, ∀ access ∈ ((a.lowerer d).method n).1.instrs.filterMap Instr.access?,
      access.object = (a.lowerer d).receiver ∧ access.type = (a.lowerer d).nameType access.field
        ∧ a.scopes.isField access.field d.name = true := by
    intro d n access h
    rw [(a.lowerer d).accesses_method n] at h
    obtain ⟨u, _, hu⟩ := List.mem_filterMap.mp h
    exact Lowerer.access?_eq_some hu
  refine ⟨fun m hm access h ↦ ?_, fun index d hd ↦ ?_⟩
  · obtain ⟨d, _, n, rfl⟩ := exists_of_mem_lowerMethods a hm
    obtain ⟨hobject, htype, hfield⟩ := haccess d n access h
    obtain ⟨f, hf, hname⟩ := Analysis.nameType_of_isField (d := d) hfields hfield
    exact ⟨hobject, f, hf, htype.trans hname⟩
  · obtain ⟨n, hm⟩ := lowerMethods_getElem? a hd {}
    refine ⟨_, hm, (a.lowerer d).accesses_method n, fun hmethods x hx access h ↦ ?_⟩
    rintro rfl
    obtain ⟨_, _, hfield⟩ := haccess d n access h
    rw [Analysis.isField_eq_false hmethods (List.mem_of_getElem? hd) hx] at hfield
    cases hfield

/-- The statement for a class with two fields `total`, the first of them a vararg.  A loop reads and
writes `count`, and assigns to `total`; in the other method a parameter hides `count`.  The class
does not pass the checks. -/
theorem field_accesses_linked_hidden :
    let name (x : String) : Expr := .ident x {}
    let int : TypeName := { name := "int" }
    let step : Stmt := .assign (name "count") (.binary .add (name "count") (.int 1 {}) {}) {}
    let set : Stmt := .assign (name "total") (name "count") {}
    let method (name : String) (params : List Param) (body : List Stmt) : MethodDecl :=
      { name, isPublic := true, isStatic := false, returns := { name := "void" }, params
        locals := [], body }
    let cls : ClassDecl :=
      { name := "Main", superclass := none
        fields := [{ name := "total", type := { int with isVararg := true } },
          { name := "total", type := { name := "boolean" } }, { name := "count", type := int }]
        methods := [
          method "run" [] [.loop (.binary .less (name "count") (.int 9 {}) {}) [step, set] {}],
          method "keep" [{ name := "count", type := int }] [step, set]] }
    let a := Analysis.ofClass [{ path := ["io"] }] cls
    let unit := a.lower cls
    a.hasErrors = true ∧ unit.name = "Main"
      ∧ (∀ v ∈ cls.fields, a.table.isImport v.name = false)
      ∧ unit.methods.map (fun m ↦ (m.instrs.filterMap Instr.access?).map
          fun access ↦ (access.field, access.isWrite))
        = [[("count", false), ("count", false), ("count", true), ("count", false), ("total", true)],
          [("total", true)]]
      ∧ (∀ m ∈ unit.methods, ∀ access ∈ m.instrs.filterMap Instr.access?,
        access.object = .receiver unit.name
          ∧ ∃ f, unit.field? access.field = some f ∧ access.type = f.type)
      ∧ ∃ m, unit.methods[1]? = some m
        ∧ ∀ access ∈ m.instrs.filterMap Instr.access?, access.field ≠ "count" := by
  intro name int step set method cls a unit
  have hfields : ∀ v ∈ cls.fields, a.table.isImport v.name = false := by decide +kernel
  obtain ⟨hlinked, hmethods⟩ := field_accesses_linked hfields
  obtain ⟨m, hm, _, hhidden⟩ := hmethods 1 _ rfl
  exact ⟨by decide +kernel, by decide +kernel, hfields, by decide +kernel, hlinked, m, hm,
    hhidden (by decide) "count" (.inl ⟨_, List.mem_cons_self, rfl⟩)⟩

end Jmm
