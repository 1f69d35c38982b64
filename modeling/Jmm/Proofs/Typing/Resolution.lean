import Jmm.Proofs.Lowering.Capture
import Mathlib.Data.List.Nodup

/-!
# What names mean in a method

Methods and variables are looked up by name only, so that a method sees the variables of every other
method of its name.  Where the names of the methods are different, `SymbolTable.method?_ofClass`
finds the signature of a method under its name, and the variables it owns are its own parameters and
locals (`Analysis.owned_cases`).  Where those have different names as well, a parameter is found
under its name with its own type (`Analysis.lookup_param`).
-/

set_option autoImplicit false

namespace Jmm

/-- A method is found under its name if no other one has it. -/
theorem SymbolTable.method?_ofClass (imports : List ImportDecl) {cls : ClassDecl} {d : MethodDecl}
    (hmethods : (cls.methods.map MethodDecl.name).Nodup) (hd : d ∈ cls.methods) :
    (ofClass imports cls).method? d.name = some (Signature.ofDecl d) := by
  have hmem : Signature.ofDecl d ∈ (cls.methods.map Signature.ofDecl).reverse :=
    List.mem_reverse.mpr (List.mem_map_of_mem hd)
  have hsome : ((ofClass imports cls).method? d.name).isSome = true :=
    List.find?_isSome.mpr ⟨_, hmem, beq_self_eq_true d.name⟩
  obtain ⟨s, hs⟩ := Option.isSome_iff_exists.mp hsome
  obtain ⟨d', hd', rfl⟩ := List.mem_map.mp (List.mem_reverse.mp (List.mem_of_find?_eq_some hs))
  have hname : d'.name = d.name := by simpa [Signature.ofDecl] using List.find?_some hs
  rw [hs, List.inj_on_of_nodup_map hmethods hd' hd hname]

theorem Site.identType_of_lookup {s : Site} {x : String} (himport : s.table.isImport x = false)
    {e : ScopeEntry} (h : s.scopes.lookup x s.method = some e) : s.identType x = e.type := by
  rw [identType, himport, if_neg Bool.false_ne_true, h]

namespace Scopes

/-! ## The variables of a unit -/

theorem entries_concat (fs : List Found) :
    (Found.concat fs).entries = fs.flatMap Found.entries := by
  induction fs with
  | nil => rfl
  | cons f fs ih =>
    show f.entries ++ (Found.concat fs).entries = _
    rw [ih, List.flatMap_cons]

theorem entries_ofLocal {method : String} {report : Bool} {d : VarDecl} {v : Symbol}
    {e : ScopeEntry} (h : e ∈ (ofLocal method report d v).entries) :
    e.name = v.name ∧ e.owner = some method ∧ e.isVararg = false := by
  rw [ofLocal] at h
  split at h
  · exact absurd h List.not_mem_nil
  · obtain rfl := List.mem_singleton.mp h
    exact ⟨rfl, rfl, rfl⟩

/-- The variables that a method contributes belong to the signature found under its name. -/
theorem mem_ofMethod {t : SymbolTable} {m : MethodDecl} {e : ScopeEntry}
    (h : e ∈ (ofMethod t m).entries) :
    e.owner = some m.name ∧ ∃ s, t.method? m.name = some s
      ∧ ((∃ p ∈ s.params, e = ofParam m.name p)
        ∨ e.isVararg = false ∧ ∃ v ∈ s.locals, e.name = v.name) := by
  rw [ofMethod] at h
  cases hs : t.method? m.name with
  | none =>
    rw [hs] at h
    exact absurd h List.not_mem_nil
  | some s =>
    rw [hs] at h
    rcases List.mem_append.mp h with h | h
    · obtain ⟨p, hp, rfl⟩ := List.mem_map.mp h
      exact ⟨rfl, s, rfl, .inl ⟨p, hp, rfl⟩⟩
    · rw [entries_concat] at h
      obtain ⟨f, hf, he⟩ := List.mem_flatMap.mp h
      obtain ⟨i, hi⟩ := List.mem_iff_getElem?.mp hf
      obtain ⟨d, v, _, hv, rfl⟩ := List.getElem?_zipWith_eq_some.mp hi
      obtain ⟨hname, howner, hvararg⟩ := entries_ofLocal he
      exact ⟨howner, s, rfl, .inr ⟨hvararg, v, List.mem_of_getElem? hv, hname⟩⟩

theorem entries_ofField {t : SymbolTable} {d : VarDecl} {e : ScopeEntry}
    (h : e ∈ (ofField t d).entries) : e.owner = none := by
  rw [ofField] at h
  split at h
  · exact absurd h List.not_mem_nil
  · split at h
    · obtain rfl := List.mem_singleton.mp h
      rfl
    · exact absurd h List.not_mem_nil

end Scopes

/-! ## The variables of a method -/

section

variable {imports : List ImportDecl} {cls : ClassDecl} {d : MethodDecl}
  (hmethods : (cls.methods.map MethodDecl.name).Nodup) (hd : d ∈ cls.methods)

include hmethods hd

/-- **The variables that a method owns are its parameters and locals.** -/
theorem Analysis.owned_cases {e : ScopeEntry} (he : e ∈ (ofClass imports cls).scopes.entries)
    (howner : e.owner = some d.name) :
    (∃ p ∈ d.params, e = Scopes.ofParam d.name (Symbol.ofParam p))
      ∨ e.isVararg = false ∧ e.name ∈ d.locals.map VarDecl.name := by
  rcases List.mem_append.mp he with he | he
  · rw [Scopes.entries_concat] at he
    obtain ⟨f, hf, he⟩ := List.mem_flatMap.mp he
    obtain ⟨field, _, rfl⟩ := List.mem_map.mp hf
    rw [Scopes.entries_ofField he] at howner
    cases howner
  · rw [Scopes.entries_concat] at he
    obtain ⟨f, hf, he⟩ := List.mem_flatMap.mp he
    obtain ⟨d', hd', rfl⟩ := List.mem_map.mp hf
    obtain ⟨howner', s, hs, hcases⟩ := Scopes.mem_ofMethod he
    have hname : d'.name = d.name := Option.some.inj (howner'.symm.trans howner)
    obtain rfl := List.inj_on_of_nodup_map hmethods hd' hd hname
    obtain rfl := Option.some.inj ((SymbolTable.method?_ofClass imports hmethods hd).symm.trans hs)
    rcases hcases with ⟨p, hp, rfl⟩ | ⟨hvararg, v, hv, hname⟩
    · obtain ⟨param, hparam, rfl⟩ := List.mem_map.mp hp
      exact .inl ⟨param, hparam, rfl⟩
    · obtain ⟨var, hvar, rfl⟩ := List.mem_map.mp hv
      exact .inr ⟨hvararg, List.mem_map.mpr ⟨var, hvar, hname.symm⟩⟩

theorem Analysis.mem_entries_param {p : Param} (hp : p ∈ d.params) :
    Scopes.ofParam d.name (Symbol.ofParam p) ∈ (ofClass imports cls).scopes.entries := by
  refine List.mem_append_right _ ?_
  rw [Scopes.entries_concat]
  refine List.mem_flatMap.mpr ⟨_, List.mem_map_of_mem hd, ?_⟩
  rw [Scopes.ofMethod, SymbolTable.method?_ofClass imports hmethods hd]
  exact List.mem_append_left _ (List.mem_map_of_mem (List.mem_map_of_mem hp))

theorem Analysis.mem_entries_local {v : VarDecl} (hv : v ∈ d.locals)
    (hvararg : v.type.isVararg = false) :
    ⟨v.name, .local, some d.name, Ty.ofTypeName v.type, false⟩
      ∈ (ofClass imports cls).scopes.entries := by
  refine List.mem_append_right _ ?_
  rw [Scopes.entries_concat]
  refine List.mem_flatMap.mpr ⟨_, List.mem_map_of_mem hd, ?_⟩
  rw [Scopes.ofMethod, SymbolTable.method?_ofClass imports hmethods hd]
  refine List.mem_append_right _ ?_
  rw [Scopes.entries_concat, Signature.ofDecl, List.zipWith_map_right, List.zipWith_self]
  refine List.mem_flatMap.mpr ⟨_, List.mem_map_of_mem hv, ?_⟩
  simp [Scopes.ofLocal, Symbol.ofVar, hvararg]

/-- A name that means no field in a method is that of a parameter or local. -/
theorem Analysis.mem_variables_of_lookup {x : String} {e : ScopeEntry}
    (h : (ofClass imports cls).scopes.lookup x d.name = some e) (hkind : e.kind ≠ .field) :
    x ∈ d.variables := by
  rw [Scopes.lookup] at h
  rcases Option.or_eq_some_iff.mp h with h | ⟨_, h⟩
  · obtain ⟨hmem, hname⟩ := List.mem_filter.mp (List.mem_of_find?_eq_some h)
    have howned := List.find?_some h
    simp only [ScopeEntry.isOwnedBy, Bool.and_eq_true, beq_iff_eq] at howned hname
    subst hname
    rw [MethodDecl.variables, List.mem_append]
    rcases owned_cases hmethods hd (List.mem_reverse.mp hmem) howned.2 with ⟨p, hp, rfl⟩ | ⟨_, h⟩
    · exact .inl (List.mem_map_of_mem hp)
    · exact .inr h
  · have hfield := List.find?_some h
    exact absurd (beq_iff_eq.mp hfield) hkind

/-- A vararg of a method is one of its parameters. -/
theorem Analysis.mem_variables_of_isVararg {x : String}
    (h : (ofClass imports cls).scopes.isVararg x d.name = true) : x ∈ d.variables := by
  obtain ⟨e, he, hprops⟩ := List.any_eq_true.mp h
  simp only [Bool.and_eq_true, beq_iff_eq] at hprops
  obtain ⟨⟨rfl, howner⟩, hvararg⟩ := hprops
  rw [MethodDecl.variables, List.mem_append]
  rcases owned_cases hmethods hd he howner with ⟨p, hp, rfl⟩ | ⟨_, h⟩
  · exact .inl (List.mem_map_of_mem hp)
  · exact .inr h

variable (hvars : d.variables.Nodup)

include hvars

/-- A variable that a method owns under the name of a parameter is the parameter. -/
theorem Analysis.eq_param {p : Param} (hp : p ∈ d.params) {e : ScopeEntry}
    (he : e ∈ (ofClass imports cls).scopes.entries) (howner : e.owner = some d.name)
    (hname : e.name = p.name) : e = Scopes.ofParam d.name (Symbol.ofParam p) := by
  obtain ⟨hparams, _, hdisjoint⟩ := List.nodup_append.mp hvars
  rcases owned_cases hmethods hd he howner with ⟨p', hp', rfl⟩ | ⟨_, hlocal⟩
  · rw [List.inj_on_of_nodup_map hparams hp' hp hname]
  · exact absurd hname.symm (hdisjoint _ (List.mem_map_of_mem hp) _ hlocal)

/-- **A parameter is found under its name.** -/
theorem Analysis.lookup_param {p : Param} (hp : p ∈ d.params) :
    (ofClass imports cls).scopes.lookup p.name d.name
      = some (Scopes.ofParam d.name (Symbol.ofParam p)) := by
  have hmem : Scopes.ofParam d.name (Symbol.ofParam p) ∈ (ofClass imports cls).scopes.entries :=
    mem_entries_param hmethods hd hp
  have hsome : (((ofClass imports cls).scopes.entries.reverse.filter fun e ↦
      e.name == p.name).find? fun e ↦ e.isOwnedBy d.name).isSome = true := by
    refine List.find?_isSome.mpr ⟨_, List.mem_filter.mpr ⟨List.mem_reverse.mpr hmem, ?_⟩, ?_⟩
    · exact beq_self_eq_true p.name
    · simp [ScopeEntry.isOwnedBy, Scopes.ofParam]
  obtain ⟨e, he⟩ := Option.isSome_iff_exists.mp hsome
  obtain ⟨hentry, hname⟩ := List.mem_filter.mp (List.mem_of_find?_eq_some he)
  have howned := List.find?_some he
  simp only [ScopeEntry.isOwnedBy, Bool.and_eq_true, beq_iff_eq] at howned hname
  rw [Scopes.lookup, he, eq_param hmethods hd hvars hp (List.mem_reverse.mp hentry) howned.2 hname]
  rfl

/-- A parameter is a vararg if it is declared as one. -/
theorem Analysis.isVararg_param {p : Param} (hp : p ∈ d.params) :
    (ofClass imports cls).scopes.isVararg p.name d.name = p.type.isVararg := by
  have hmem : Scopes.ofParam d.name (Symbol.ofParam p) ∈ (ofClass imports cls).scopes.entries :=
    mem_entries_param hmethods hd hp
  rw [Bool.eq_iff_iff, Scopes.isVararg, List.any_eq_true]
  constructor
  · rintro ⟨e, he, hprops⟩
    simp only [Bool.and_eq_true, beq_iff_eq] at hprops
    obtain ⟨⟨hname, howner⟩, hvararg⟩ := hprops
    rw [eq_param hmethods hd hvars hp he howner hname] at hvararg
    exact hvararg
  · intro hvararg
    refine ⟨_, hmem, ?_⟩
    simp [Scopes.ofParam, Symbol.ofParam, hvararg]

end
end Jmm
