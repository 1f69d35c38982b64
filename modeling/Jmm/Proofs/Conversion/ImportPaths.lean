import Jmm.Program.OfNode

/-!
# The encodings of an import path

The path of an import is given as an array of strings, as the text of a list in brackets, or as a
dotted name, the latter under either of two attributes.  All of them convert to the same path
(`import_encodings_agree`), as long as no segment holds a character with a meaning in one of them.

A list in brackets and a dotted name are read by one function, `Node.listedWords`, which trims,
drops brackets, cuts at commas and dots and trims again.  It undoes the writing of the list if the
words in it are segments and all else around them is blank.
-/

set_option autoImplicit false

namespace Jmm.Text

/-! ## Cutting what was put together -/

theorem splitWhen_eq (p : Char → Bool) (cs : List Char) : splitWhen p cs = cs.splitOnP p := by
  induction cs with
  | nil => rfl
  | cons c cs ih =>
    rw [splitWhen, ih, List.splitOnP_cons_eq_if_modifyHead]
    cases h : cs.splitOnP p with
    | nil => exact absurd h (ih ▸ splitWhen_ne_nil p cs)
    | cons w ws => rfl

/-- Pieces without separators that are put together by one are found again. -/
theorem splitWhen_intercalate {p : Char → Bool} {c : Char} (hc : p c = true)
    {ws : List (List Char)} (hne : ws ≠ []) (h : ∀ w ∈ ws, ∀ x ∈ w, p x = false) :
    splitWhen p ([c].intercalate ws) = ws := by
  induction ws with
  | nil => exact absurd rfl hne
  | cons w ws ih =>
    obtain ⟨hw, hws⟩ := List.forall_mem_cons.mp h
    rw [splitWhen_eq]
    cases ws with
    | nil => rw [List.intercalate_singleton, List.splitOnP_eq_singleton hw]
    | cons w' ws =>
      have hrest := ih (List.cons_ne_nil w' ws) hws
      rw [splitWhen_eq] at hrest
      rw [List.intercalate_cons_cons, List.append_assoc, List.singleton_append,
        List.splitOnP_append_cons_of_forall_mem hw c hc, hrest]

theorem mem_intercalate {c x : Char} {ws : List (List Char)} (h : x ∈ [c].intercalate ws) :
    x = c ∨ ∃ w ∈ ws, x ∈ w := by
  induction ws with
  | nil => cases h
  | cons w ws ih =>
    cases ws with
    | nil =>
      rw [List.intercalate_singleton] at h
      exact .inr ⟨w, List.mem_cons_self, h⟩
    | cons w' ws =>
      rw [List.intercalate_cons_cons, List.append_assoc, List.singleton_append] at h
      rcases List.mem_append.mp h with h | h
      · exact .inr ⟨w, List.mem_cons_self, h⟩
      · rcases List.mem_cons.mp h with h | h
        · exact .inl h
        · rcases ih h with h | ⟨v, hv, hx⟩
          · exact .inl h
          · exact .inr ⟨v, List.mem_cons_of_mem w hv, hx⟩

theorem toList_dotted (path : List String) :
    (dotted path).toList = ['.'].intercalate (path.map String.toList) :=
  String.toList_intercalate

/-- The segments of a dotted name are found again. -/
theorem segments_dotted {path : List String} (hne : path ≠ [])
    (h : ∀ s ∈ path, ∀ c ∈ s.toList, (c == '.') = false) : segments (dotted path) = path := by
  have hsplit : splitWhen (· == '.') (dotted path).toList = path.map String.toList := by
    rw [toList_dotted]
    refine splitWhen_intercalate rfl (mt List.map_eq_nil_iff.mp hne) fun cs hcs ↦ ?_
    obtain ⟨s, hs, rfl⟩ := List.mem_map.mp hcs
    exact h s hs
  rw [segments, hsplit, List.map_map]
  exact (List.map_congr_left fun s _ ↦ String.ofList_toList).trans (List.map_id path)

theorem mem_toList_dotted {path : List String} {c : Char} (h : c ∈ (dotted path).toList) :
    c = '.' ∨ ∃ s ∈ path, c ∈ s.toList := by
  rw [toList_dotted] at h
  rcases mem_intercalate h with h | ⟨cs, hcs, hc⟩
  · exact .inl h
  · obtain ⟨s, hs, rfl⟩ := List.mem_map.mp hcs
    exact .inr ⟨s, hs, hc⟩

/-! ## Trimming -/

section trim

variable {p : Char → Bool} {a b l w r : List Char}

theorem dropWhile_append_eq (ha : ∀ c ∈ a, p c = true) (hb : ∀ c, b.head? = some c → p c = false) :
    (a ++ b).dropWhile p = b := by
  rw [List.dropWhile_append_of_pos ha]
  cases b with
  | nil => rfl
  | cons c b => exact List.dropWhile_cons_of_neg (Bool.eq_false_iff.mp (hb c rfl))

theorem dropEndWhile_append_eq (ha : ∀ c, a.getLast? = some c → p c = false)
    (hb : ∀ c ∈ b, p c = true) : dropEndWhile p (a ++ b) = a := by
  rw [dropEndWhile, List.reverse_append, dropWhile_append_eq, List.reverse_reverse]
  · exact fun c hc ↦ hb c (List.mem_reverse.mp hc)
  · rwa [List.head?_reverse]

theorem dropWhile_eq_self (h : ∀ c ∈ a, p c = false) : a.dropWhile p = a :=
  dropWhile_append_eq (fun _ hc ↦ absurd hc List.not_mem_nil)
    fun c hc ↦ h c (List.mem_of_mem_head? hc)

theorem dropEndWhile_eq_self (h : ∀ c ∈ a, p c = false) : dropEndWhile p a = a := by
  rw [dropEndWhile, dropWhile_eq_self fun c hc ↦ h c (List.mem_reverse.mp hc),
    List.reverse_reverse]

/-- Blanks around a text that neither starts nor ends with one are trimmed. -/
theorem trim_append (hl : ∀ c ∈ l, isBlank c = true) (hr : ∀ c ∈ r, isBlank c = true) (hw : w ≠ [])
    (hfirst : ∀ c, w.head? = some c → isBlank c = false)
    (hlast : ∀ c, w.getLast? = some c → isBlank c = false) : trim (l ++ (w ++ r)) = w := by
  rw [trim, dropWhile_append_eq hl, dropEndWhile_append_eq hlast hr]
  obtain ⟨c, w, rfl⟩ := List.exists_cons_of_ne_nil hw
  exact hfirst

end trim

/-! ## Segments and lists of them -/

/-- A character that ends a word of a list. -/
def isSeparator (c : Char) : Bool := c == ',' || c == '.'

/-- A square bracket. -/
def isBracket (c : Char) : Bool := c == '[' || c == ']'

/-- A text that can stand for one segment of a path in every way to write it. -/
structure IsSegment (s : String) : Prop where
  ne_empty : s ≠ ""
  not_blank : ∀ c ∈ s.toList, isBlank c = false
  not_separator : ∀ c ∈ s.toList, isSeparator c = false
  not_bracket : ∀ c ∈ s.toList, isBracket c = false

theorem IsSegment.not_dot {s : String} (h : IsSegment s) (c : Char) (hc : c ∈ s.toList) :
    (c == '.') = false :=
  (Bool.or_eq_false_iff.mp (h.not_separator c hc)).2

instance (s : String) : Decidable (IsSegment s) :=
  have : Decidable (∀ c ∈ s.toList, isBlank c = false ∧ isSeparator c = false
      ∧ isBracket c = false) := List.decidableBAll _ _
  decidable_of_iff (s ≠ "" ∧ ∀ c ∈ s.toList, isBlank c = false ∧ isSeparator c = false
      ∧ isBracket c = false)
    ⟨fun h ↦ ⟨h.1, fun c hc ↦ (h.2 c hc).1, fun c hc ↦ (h.2 c hc).2.1, fun c hc ↦ (h.2 c hc).2.2⟩,
      fun h ↦ ⟨h.ne_empty, fun c hc ↦ ⟨h.not_blank c hc, h.not_separator c hc,
        h.not_bracket c hc⟩⟩⟩

/-- Only blanks. -/
def IsBlank (s : String) : Prop := ∀ c ∈ s.toList, isBlank c = true

instance (s : String) : Decidable (IsBlank s) :=
  List.decidableBAll (fun c ↦ isBlank c = true) s.toList

/-- A word and the text around it. -/
structure PaddedWord where
  before : String
  word : String
  after : String

namespace PaddedWord

/-- The word with the text around it. -/
def text (w : PaddedWord) : String := w.before ++ w.word ++ w.after

/-- A word with nothing around it. -/
def bare (word : String) : PaddedWord := ⟨"", word, ""⟩

/-- A segment with blanks around it. -/
structure IsPadded (w : PaddedWord) : Prop where
  before : IsBlank w.before
  word : IsSegment w.word
  after : IsBlank w.after

end PaddedWord

/-- Words in brackets with commas between them, and text around the brackets. -/
def bracketed (before : String) (ws : List PaddedWord) (after : String) : String :=
  before ++ "[" ++ ",".intercalate (ws.map PaddedWord.text) ++ "]" ++ after

theorem isBlank_empty : IsBlank "" := fun _ hc ↦ absurd hc List.not_mem_nil

theorem isSeparator_of_isBlank {c : Char} (h : isBlank c = true) : isSeparator c = false := by
  refine Bool.eq_false_iff.mpr fun hc ↦ ?_
  rcases Bool.or_eq_true_iff.mp hc with hc | hc <;> exact absurd (eq_of_beq hc ▸ h) (by decide)

theorem isBracket_of_isBlank {c : Char} (h : isBlank c = true) : isBracket c = false := by
  refine Bool.eq_false_iff.mpr fun hc ↦ ?_
  rcases Bool.or_eq_true_iff.mp hc with hc | hc <;> exact absurd (eq_of_beq hc ▸ h) (by decide)

namespace PaddedWord.IsPadded

variable {w : PaddedWord}

theorem mem_cases {c : Char} (hc : c ∈ w.text.toList) :
    c ∈ w.before.toList ∨ c ∈ w.word.toList ∨ c ∈ w.after.toList := by
  rw [text, String.toList_append, String.toList_append, List.append_assoc] at hc
  exact (List.mem_append.mp hc).imp_right List.mem_append.mp

theorem isSeparator_eq_false (h : w.IsPadded) {c : Char} (hc : c ∈ w.text.toList) :
    isSeparator c = false := by
  rcases mem_cases hc with hc | hc | hc
  · exact isSeparator_of_isBlank (h.before c hc)
  · exact h.word.not_separator c hc
  · exact isSeparator_of_isBlank (h.after c hc)

theorem isBracket_eq_false (h : w.IsPadded) {c : Char} (hc : c ∈ w.text.toList) :
    isBracket c = false := by
  rcases mem_cases hc with hc | hc | hc
  · exact isBracket_of_isBlank (h.before c hc)
  · exact h.word.not_bracket c hc
  · exact isBracket_of_isBlank (h.after c hc)

theorem toList_ne_nil (h : w.IsPadded) : w.word.toList ≠ [] :=
  fun hnil ↦ h.word.ne_empty (String.toList_eq_nil_iff.mp hnil)

theorem trim_text (h : w.IsPadded) : trim w.text.toList = w.word.toList := by
  rw [text, String.toList_append, String.toList_append, List.append_assoc]
  refine trim_append h.before h.after h.toList_ne_nil (fun c hc ↦ ?_) fun c hc ↦ ?_
  · exact h.word.not_blank c (List.mem_of_mem_head? hc)
  · exact h.word.not_blank c (List.mem_of_mem_getLast? hc)

end PaddedWord.IsPadded

section lists

variable {ws : List PaddedWord}

/-- The characters of words put together by a separator. -/
theorem isBracket_of_mem_intercalate (h : ∀ w ∈ ws, w.IsPadded) {sep : Char}
    (hsep : isSeparator sep = true) {c : Char}
    (hc : c ∈ [sep].intercalate (ws.map fun w ↦ w.text.toList)) : isBracket c = false := by
  rcases mem_intercalate hc with rfl | ⟨cs, hcs, hc⟩
  · rcases Bool.or_eq_true_iff.mp hsep with hsep | hsep <;> rw [eq_of_beq hsep] <;> decide
  · obtain ⟨w, hw, rfl⟩ := List.mem_map.mp hcs
    exact (h w hw).isBracket_eq_false hc

/-- Words put together by a separator are found again, without the blanks around them. -/
theorem words_intercalate (hne : ws ≠ []) (h : ∀ w ∈ ws, w.IsPadded) {sep : Char}
    (hsep : isSeparator sep = true) :
    (((splitWhen isSeparator ([sep].intercalate (ws.map fun w ↦ w.text.toList))).map trim).filter
      fun w ↦ !w.isEmpty).map String.ofList = ws.map PaddedWord.word := by
  have hsplit : splitWhen isSeparator ([sep].intercalate (ws.map fun w ↦ w.text.toList))
      = ws.map fun w ↦ w.text.toList := by
    refine splitWhen_intercalate hsep (by simpa using hne) fun cs hcs c hc ↦ ?_
    obtain ⟨w, hw, rfl⟩ := List.mem_map.mp hcs
    exact (h w hw).isSeparator_eq_false hc
  have htrim : (ws.map fun w ↦ w.text.toList).map trim = ws.map fun w ↦ w.word.toList := by
    rw [List.map_map]
    exact List.map_congr_left fun w hw ↦ (h w hw).trim_text
  have hfilter : (ws.map fun w ↦ w.word.toList).filter (fun w ↦ !w.isEmpty)
      = ws.map fun w ↦ w.word.toList := by
    refine List.filter_eq_self.mpr fun cs hcs ↦ ?_
    obtain ⟨w, hw, rfl⟩ := List.mem_map.mp hcs
    simpa using (h w hw).toList_ne_nil
  rw [hsplit, htrim, hfilter, List.map_map]
  exact List.map_congr_left fun w _ ↦ String.ofList_toList

end lists

end Jmm.Text

namespace Jmm

open Text

namespace Node

section listedWords

variable {ws : List PaddedWord}

/-- The words of a list in brackets. -/
theorem listedWords_bracketed (hne : ws ≠ []) (h : ∀ w ∈ ws, w.IsPadded) {before after : String}
    (hbefore : Text.IsBlank before) (hafter : Text.IsBlank after) :
    listedWords (bracketed before ws after) = ws.map PaddedWord.word := by
  have hcomma : isSeparator ',' = true := rfl
  have hwords := words_intercalate hne h hcomma
  have hbracket := fun c ↦ isBracket_of_mem_intercalate h hcomma (c := c)
  generalize hcs : [','].intercalate (ws.map fun w ↦ w.text.toList) = cs at hwords hbracket
  have htext : (bracketed before ws after).toList
      = before.toList ++ (['['] ++ (cs ++ [']']) ++ after.toList) := by
    have hitems : (",".intercalate (ws.map PaddedWord.text)).toList = cs := by
      rw [String.toList_intercalate, List.map_map]
      exact hcs
    simp only [bracketed, String.toList_append, hitems, List.append_assoc]
    rfl
  have htrim : trim (bracketed before ws after).toList = ['['] ++ (cs ++ [']']) := by
    rw [htext]
    refine trim_append hbefore hafter (List.cons_ne_nil _ _) (fun c hc ↦ ?_) fun c hc ↦ ?_
    · exact Option.some.inj hc ▸ (by decide)
    · rw [← List.append_assoc, List.getLast?_concat] at hc
      exact Option.some.inj hc ▸ (by decide)
  have hopen : (['['] ++ (cs ++ [']'])).dropWhile (· == '[') = cs ++ [']'] := by
    refine dropWhile_append_eq (List.forall_mem_singleton.mpr rfl) fun c hc ↦ ?_
    rcases List.mem_append.mp (List.mem_of_mem_head? hc) with hc | hc
    · exact (Bool.or_eq_false_iff.mp (hbracket c hc)).1
    · exact List.mem_singleton.mp hc ▸ (by decide)
  have hclose : dropEndWhile (· == ']') (cs ++ [']']) = cs := by
    refine dropEndWhile_append_eq (fun c hc ↦ ?_) (List.forall_mem_singleton.mpr rfl)
    exact (Bool.or_eq_false_iff.mp (hbracket c (List.mem_of_mem_getLast? hc))).2
  rw [listedWords, htrim, hopen, hclose]
  exact hwords

/-- The words of a dotted name. -/
theorem listedWords_dotted {path : List String} (hne : path ≠ []) (h : ∀ s ∈ path, IsSegment s) :
    listedWords (dotted path) = path := by
  have hblank : ∀ c ∈ (dotted path).toList, isBlank c = false := by
    intro c hc
    rcases mem_toList_dotted hc with rfl | ⟨s, hs, hc⟩
    · decide
    · exact (h s hs).not_blank c hc
  have hbracket : ∀ c ∈ (dotted path).toList, isBracket c = false := by
    intro c hc
    rcases mem_toList_dotted hc with rfl | ⟨s, hs, hc⟩
    · decide
    · exact (h s hs).not_bracket c hc
  have htrim : trim (dotted path).toList = (dotted path).toList := by
    rw [trim, dropWhile_eq_self hblank, dropEndWhile_eq_self hblank]
  -- a segment is a word with nothing around it
  have hpadded : ∀ w ∈ path.map PaddedWord.bare, w.IsPadded :=
    List.forall_mem_map.mpr fun s hs ↦ ⟨isBlank_empty, h s hs, isBlank_empty⟩
  have htexts : (path.map PaddedWord.bare).map (fun w ↦ w.text.toList)
      = path.map String.toList := by
    simp [PaddedWord.text, PaddedWord.bare]
  have hwords := words_intercalate (mt List.map_eq_nil_iff.mp hne) hpadded
    (show isSeparator '.' = true from rfl)
  rw [htexts, ← toList_dotted, List.map_map] at hwords
  rw [listedWords, htrim, dropWhile_eq_self fun c hc ↦ (Bool.or_eq_false_iff.mp (hbracket c hc)).1,
    dropEndWhile_eq_self fun c hc ↦ (Bool.or_eq_false_iff.mp (hbracket c hc)).2]
  exact hwords.trans (List.map_id path)

end listedWords

/-- The ways to give the path of an import in the attributes of a node. -/
inductive GivesPath (n : Node) (path : List String) : Prop
  /-- As an array of strings. -/
  | array (h : n.value? "value" = some (.array (path.map .string)))
  /-- As a list in brackets, with blanks around the brackets and the commas. -/
  | bracketed {before after : String} {words : List PaddedWord}
    (hwords : words.map PaddedWord.word = path)
    (hblank : ∀ w ∈ words, IsBlank w.before ∧ IsBlank w.after)
    (hbefore : IsBlank before) (hafter : IsBlank after)
    (h : n.value? "value" = some (.string (Text.bracketed before words after)))
  /-- As a dotted name. -/
  | dotted (h : n.value? "value" = some (.string (Text.dotted path)))
  /-- As the name of the node. -/
  | name (hvalue : n.value? "value" = none)
    (h : n.value? "name" = some (.string (Text.dotted path)))

theorem texts?_map_string (path : List String) : texts? (path.map .string) = some path := by
  induction path with
  | nil => rfl
  | cons s path ih =>
    rw [List.map_cons, texts?, ih]
    rfl

theorem words?_of_string {n : Node} {name text : String}
    (h : n.value? name = some (.string text)) : n.words? name = some (listedWords text) := by
  rw [words?, h]

theorem importPath_of_words? {n : Node} {path : List String} (h : n.words? "value" = some path) :
    n.importPath = .ok path := by
  rw [importPath, h]

theorem importPath_of_givesPath {n : Node} {path : List String} (hne : path ≠ [])
    (hpath : ∀ s ∈ path, IsSegment s) (h : n.GivesPath path) : n.importPath = .ok path := by
  cases h with
  | array h =>
    refine importPath_of_words? ?_
    rw [words?, h]
    exact texts?_map_string path
  | bracketed hwords hblank hbefore hafter h =>
    subst hwords
    refine importPath_of_words? ((words?_of_string h).trans (congrArg some ?_))
    refine listedWords_bracketed (mt List.map_eq_nil_iff.mpr hne) (fun w hw ↦ ?_) hbefore hafter
    exact ⟨(hblank w hw).1, hpath _ (List.mem_map_of_mem hw), (hblank w hw).2⟩
  | dotted h =>
    refine importPath_of_words? ((words?_of_string h).trans (congrArg some ?_))
    exact listedWords_dotted hne hpath
  | name hvalue h =>
    have hwords : n.words? "value" = none := by rw [words?, hvalue]
    have hname : n.attr "name" = .ok (Text.dotted path) := by rw [attr, attr?, h]
    rw [importPath, hwords, hname]
    exact congrArg Except.ok (segments_dotted hne fun s hs ↦ (hpath s hs).not_dot)

end Node

/-- **The encodings of an import path agree.**  A node that gives a path of segments in any of the
four ways declares the import of this path, and the dotted name of the import has these
segments. -/
theorem import_encodings_agree {n : Node} {path : List String} (hne : path ≠ [])
    (hpath : ∀ s ∈ path, IsSegment s) (h : n.GivesPath path) :
    n.toImport = .ok ⟨path, n.span⟩
      ∧ Text.segments (ImportDecl.dotted ⟨path, n.span⟩) = path := by
  refine ⟨?_, segments_dotted hne fun s hs ↦ (hpath s hs).not_dot⟩
  rw [Node.toImport, Node.importPath_of_givesPath hne hpath h]
  exact if_neg (mt List.isEmpty_iff.mp hne)

/-- The statement for a list with blanks in many places. -/
theorem import_encodings_agree_blanks :
    let path := ["java", "util", "List"]
    let n : Node :=
      { kind := "ImportStmt", attributes := [("value", .string " [ java ,util,  List]\t")] }
    (∀ s ∈ path, IsSegment s) ∧ n.toImport = .ok ⟨path, n.span⟩
      ∧ Text.segments (ImportDecl.dotted ⟨path, n.span⟩) = path := by
  intro path n
  let words : List PaddedWord := [⟨" ", "java", " "⟩, ⟨"", "util", ""⟩, ⟨"  ", "List", ""⟩]
  have hpath : ∀ s ∈ path, IsSegment s := by decide +kernel
  have htext : Text.bracketed " " words "\t" = " [ java ,util,  List]\t" := by decide +kernel
  have hgives : n.GivesPath path :=
    .bracketed (show words.map PaddedWord.word = path from rfl) (by decide +kernel)
      (show IsBlank " " by decide +kernel) (show IsBlank "\t" by decide +kernel)
      (htext ▸ rfl)
  exact ⟨hpath, import_encodings_agree (List.cons_ne_nil _ _) hpath hgives⟩

end Jmm
