import Jmm.Compile
import Mathlib.Data.List.Find
import Mathlib.Data.List.TakeWhile

/-!
# Class paths before and after lowering

The symbol table and the lowered class each turn the name of a class into a path
(`SymbolTable.qualifiedName` and `Ollir.Class.classPath`).  Both search the imports for the first
one that is known under the name.  The lowered class goes by the full path of an import and by its
last segment, as `SymbolTable.isImport` does; the table goes by the last segment only.

The last segment of a path has no dot in it, so the two searches differ just for a name with a dot
that is the full path of an import (`SymbolTable.IsDottedImport`).  There the table gives the name
back, which is no path (`class_paths_agree_iff`).
-/

set_option autoImplicit false

namespace Jmm

namespace Text

variable {s : String}

theorem dot_notMem_lastSegment (s : String) : '.' ∉ (lastSegment s).toList := by
  rw [lastSegment, String.toList_ofList, List.mem_reverse]
  exact fun h ↦ absurd (List.mem_takeWhile_imp h) (by decide)

/-- A name without a dot has one segment. -/
theorem lastSegment_eq_self (h : '.' ∉ s.toList) : lastSegment s = s := by
  have hall : ∀ c ∈ s.toList.reverse, (c != '.') = true :=
    fun c hc ↦ bne_iff_ne.mpr fun heq ↦ h (heq ▸ List.mem_reverse.mp hc)
  rw [lastSegment, List.takeWhile_eq_self_iff.mpr hall, List.reverse_reverse,
    String.ofList_toList]

theorem dot_notMem_slashed (s : String) : '.' ∉ (slashed s).toList := by
  rw [slashed, String.toList_ofList]
  intro h
  obtain ⟨c, _, hc⟩ := List.mem_map.mp h
  by_cases hdot : c = '.'
  · rw [hdot] at hc
    exact absurd hc (by decide)
  · rw [if_neg (by simpa using hdot)] at hc
    exact hdot hc

theorem slashed_ne_self (h : '.' ∈ s.toList) : slashed s ≠ s :=
  fun heq ↦ dot_notMem_slashed s (heq.symm ▸ h)

end Text

/-- Whether a path is known under a name: in full, or by its last segment. -/
def isKnownAs (name path : String) : Bool := path == name || Text.lastSegment path == name

section isKnownAs

variable {name path : String}

/-- Under a name without a dot a path is known by its last segment. -/
theorem isKnownAs_of_simple (h : '.' ∉ name.toList) :
    isKnownAs name path = (Text.lastSegment path == name) := by
  by_cases hfull : path = name
  · rw [isKnownAs, hfull, Text.lastSegment_eq_self h, Bool.or_self]
  · rw [isKnownAs, beq_false_of_ne hfull, Bool.false_or]

theorem lastSegment_beq_of_dotted (h : '.' ∈ name.toList) :
    (Text.lastSegment path == name) = false :=
  beq_false_of_ne fun heq ↦ Text.dot_notMem_lastSegment path (heq.symm ▸ h)

/-- Under a name with a dot a path is known in full only. -/
theorem isKnownAs_of_dotted (h : '.' ∈ name.toList) :
    isKnownAs name path = (path == name) := by
  rw [isKnownAs, lastSegment_beq_of_dotted h, Bool.or_false]

end isKnownAs

namespace SymbolTable

/-- A name with a dot that is the full path of an import, and not the name of the class. -/
def IsDottedImport (t : SymbolTable) (name : String) : Prop :=
  name ≠ t.className ∧ '.' ∈ name.toList ∧ name ∈ t.imports

instance (t : SymbolTable) (name : String) : Decidable (t.IsDottedImport name) :=
  inferInstanceAs (Decidable (_ ∧ _ ∧ _))

theorem isImport_eq (t : SymbolTable) (name : String) :
    t.isImport name = t.imports.any (isKnownAs name) := rfl

theorem qualifiedName_eq (t : SymbolTable) (name : String) :
    t.qualifiedName name = if name = t.className then name
      else ((t.imports.find? fun i ↦ Text.lastSegment i == name).map Text.slashed).getD name := by
  rw [qualifiedName]
  cases t.imports.find? fun i ↦ Text.lastSegment i == name <;> rfl

/-- The table does not know an import by its full path. -/
theorem qualifiedName_of_isDottedImport {t : SymbolTable} {name : String}
    (h : t.IsDottedImport name) : t.qualifiedName name = name := by
  have hnone : t.imports.find? (fun i ↦ Text.lastSegment i == name) = none :=
    List.find?_eq_none.mpr fun i _ ↦ by rw [lastSegment_beq_of_dotted h.2.1]; decide
  rw [qualifiedName_eq, if_neg h.1, hnone]
  rfl

end SymbolTable

namespace Ollir.Class

/-- What a lowered class takes over from the symbol table to resolve the names of classes. -/
structure Resolves (unit : Class) (t : SymbolTable) : Prop where
  name : unit.name = t.className
  imports : unit.imports = t.imports
  superclass : unit.superclass = t.superclass

theorem resolves_lower (a : Analysis) (cls : ClassDecl) : (a.lower cls).Resolves a.table :=
  ⟨rfl, rfl, rfl⟩

variable {unit : Class} {t : SymbolTable} {name : String}

theorem classPath_eq (unit : Class) (name : String) :
    unit.classPath name = if name = unit.name then name
      else ((unit.imports.find? (isKnownAs name)).map Text.slashed).getD name := by
  have hfind : (unit.imports.find? fun i ↦ i == name || Text.lastSegment i == name)
      = unit.imports.find? (isKnownAs name) := rfl
  rw [classPath, hfind]
  cases unit.imports.find? (isKnownAs name) <;> rfl

theorem classPath_of_found {i : String} (hname : name ≠ unit.name)
    (h : unit.imports.find? (isKnownAs name) = some i) :
    unit.classPath name = Text.slashed i := by
  rw [classPath_eq, if_neg hname, h]
  rfl

namespace Resolves

theorem classPath_of_isDottedImport (hu : unit.Resolves t) (h : t.IsDottedImport name) :
    unit.classPath name = Text.slashed name := by
  obtain ⟨hname, hdot, himport⟩ := h
  have hsome : (unit.imports.find? (isKnownAs name)).isSome = true := by
    rw [hu.imports, List.find?_isSome]
    exact ⟨name, himport, by rw [isKnownAs_of_dotted hdot, beq_self_eq_true]⟩
  obtain ⟨i, hi⟩ := Option.isSome_iff_exists.mp hsome
  have hknown := List.find?_some hi
  rw [isKnownAs_of_dotted hdot, beq_iff_eq] at hknown
  rw [classPath_of_found (hu.name ▸ hname) hi, hknown]

/-- The two searches agree on every other name. -/
theorem classPath_eq_qualifiedName (hu : unit.Resolves t) (h : ¬ t.IsDottedImport name) :
    unit.classPath name = t.qualifiedName name := by
  rw [classPath_eq, SymbolTable.qualifiedName_eq, hu.name, hu.imports]
  by_cases hname : name = t.className
  · rw [if_pos hname, if_pos hname]
  · have hsame : ∀ i ∈ t.imports, isKnownAs name i = (Text.lastSegment i == name) := by
      intro i hi
      by_cases hdot : '.' ∈ name.toList
      · -- the name is no import, so neither search finds one
        have hne : i ≠ name := fun heq ↦ h ⟨hname, hdot, heq ▸ hi⟩
        rw [isKnownAs, beq_false_of_ne hne, Bool.false_or]
      · exact isKnownAs_of_simple hdot
    rw [if_neg hname, if_neg hname, List.find?_congr hsame]

theorem qualifiedName_eq_iff (hu : unit.Resolves t) :
    t.qualifiedName name = unit.classPath name ↔ ¬ t.IsDottedImport name := by
  refine ⟨fun heq h ↦ ?_, fun h ↦ (hu.classPath_eq_qualifiedName h).symm⟩
  rw [SymbolTable.qualifiedName_of_isDottedImport h, hu.classPath_of_isDottedImport h] at heq
  exact Text.slashed_ne_self h.2.1 heq.symm

theorem superPath_eq_iff (hu : unit.Resolves t) :
    t.superPath = unit.superPath ↔ ∀ n, t.superclass = some n → ¬ t.IsDottedImport n := by
  rw [SymbolTable.superPath, superPath, hu.superclass]
  cases t.superclass with
  | none => simp
  | some name => simpa using hu.qualifiedName_eq_iff

/-- The path of an import, in the lowered class. -/
theorem exists_classPath_eq (hu : unit.Resolves t) (himport : t.isImport name = true)
    (hname : name ≠ t.className) : ∃ i ∈ t.imports, unit.classPath name = Text.slashed i := by
  rw [SymbolTable.isImport_eq, List.any_eq_true, ← List.find?_isSome] at himport
  obtain ⟨i, hi⟩ := Option.isSome_iff_exists.mp himport
  exact ⟨i, List.mem_of_find?_eq_some hi,
    classPath_of_found (hu.name ▸ hname) (hu.imports.symm ▸ hi)⟩

end Resolves

end Ollir.Class

/-- **The two resolutions of class names agree**, on a name and so on the superclass, unless the
name is the full path of an import, with a dot in it.  The lowered class gives every import its
path; the table gives back a full path with dots as it is, and every other import its path. -/
theorem class_paths_agree_iff (imports : List ImportDecl) (cls : ClassDecl) :
    let a := Analysis.ofClass imports cls
    let unit := a.lower cls
    (∀ n, a.table.qualifiedName n = unit.classPath n ↔ ¬ a.table.IsDottedImport n)
      ∧ (a.table.superPath = unit.superPath
          ↔ ∀ n, cls.superclass = some n → ¬ a.table.IsDottedImport n)
      ∧ ∀ n, a.table.isImport n = true → n ≠ cls.name →
          ∃ i ∈ imports, unit.classPath n = Text.slashed i.dotted
            ∧ a.table.qualifiedName n
              = if a.table.IsDottedImport n then n else Text.slashed i.dotted := by
  intro a unit
  have hu : unit.Resolves a.table := Ollir.Class.resolves_lower a cls
  refine ⟨fun n ↦ hu.qualifiedName_eq_iff, hu.superPath_eq_iff, fun n himport hname ↦ ?_⟩
  obtain ⟨path, hpath, hclass⟩ := hu.exists_classPath_eq himport hname
  obtain ⟨i, hi, rfl⟩ := List.mem_map.mp hpath
  refine ⟨i, hi, hclass, ?_⟩
  split
  · rename_i hdotted
    exact SymbolTable.qualifiedName_of_isDottedImport hdotted
  · rename_i hdotted
    rw [← hu.classPath_eq_qualifiedName hdotted, hclass]

/-- The statement for two imports with the same last segment, and the full path of the second. -/
theorem class_paths_agree_iff_repeated :
    let imports : List ImportDecl := [⟨["a", "Base"], {}⟩, ⟨["b", "Base"], {}⟩]
    let cls : ClassDecl :=
      { name := "Main", superclass := some "Base", fields := [], methods := [] }
    let a := Analysis.ofClass imports cls
    a.table.isImport "Base" = true
      ∧ a.table.qualifiedName "Base" = (a.lower cls).classPath "Base"
      ∧ a.table.superPath = (a.lower cls).superPath
      ∧ a.table.isImport "b.Base" = true
      ∧ ∃ i ∈ imports, (a.lower cls).classPath "b.Base" = Text.slashed i.dotted
        ∧ a.table.qualifiedName "b.Base" = "b.Base" := by
  intro imports cls a
  have hbase : ¬ a.table.IsDottedImport "Base" := by decide +kernel
  have hfull : a.table.IsDottedImport "b.Base" := by decide +kernel
  have himport : a.table.isImport "b.Base" = true := by decide +kernel
  obtain ⟨hpath, hsuper, hpaths⟩ := class_paths_agree_iff imports cls
  obtain ⟨i, hi, hclass, htable⟩ := hpaths "b.Base" himport (by decide)
  refine ⟨by decide +kernel, (hpath "Base").mpr hbase, hsuper.mpr fun n hn ↦ ?_, himport, i, hi,
    hclass, htable.trans (if_pos hfull)⟩
  exact Option.some.inj hn ▸ hbase

/-- A superclass that is named by its full path: the table has its name, the lowered class its
path. -/
theorem super_path_of_dotted_import :
    let imports : List ImportDecl := [⟨["a", "b", "Base"], {}⟩]
    let cls : ClassDecl :=
      { name := "Main", superclass := some "a.b.Base", fields := [], methods := [] }
    let a := Analysis.ofClass imports cls
    a.violations = [] ∧ a.table.isImport "a.b.Base" = true
      ∧ a.table.qualifiedName "a.b.Base" = "a.b.Base"
      ∧ (a.lower cls).classPath "a.b.Base" = "a/b/Base"
      ∧ a.table.superPath = "a.b.Base" ∧ (a.lower cls).superPath = "a/b/Base" := by
  decide +kernel

end Jmm
