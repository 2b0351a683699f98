import Foks.KvStore.Nodes

/-!
# Paths of the KV store

`lib/kv/names.go`: a path is cut at its slashes, of which repeated ones count once. It may begin with a
slash, and it may end with one.
-/

namespace Foks.KvClient

open Lib List

abbrev KVPath := List Char

abbrev KVPathComponent := List Char

def pathSplit (p : KVPath) : List (List Char) := p.splitOn '/'

/-- The loop of `pathPrune`: a part that is empty is dropped after another one. -/
def pathPruneFrom : Option ℕ → List (List Char) → List (List Char)
  | _, [] => []
  | prevLen, c :: cs =>
    if 0 < c.length ∨ prevLen ≠ some 0 then c :: pathPruneFrom (some c.length) cs
    else pathPruneFrom (some c.length) cs

def pathPrune (s : List (List Char)) : List (List Char) := pathPruneFrom none s

structure ParsedPath where
  components : List KVPathComponent
  trailingSlash : Bool := false
  leadingSlash : Bool := false
  deriving DecidableEq

/-- The parts after the leading slash: those that are not empty, and whether the last one is. -/
def parseParts (leadingSlash : Bool) (parts : List (List Char)) : ParsedPath :=
  ⟨parts.filter (· ≠ []), parts.getLast?.any (· = []), leadingSlash⟩

def parsePath (p : KVPath) : Except CoreError ParsedPath := do
  refuse (p.length = 0) (.kvPathError "empty path")
  match pathPrune (pathSplit p) with
  | [] => return ⟨[], false, false⟩
  | [] :: parts => return parseParts true parts
  | parts => return parseParts false parts

def parseAbsPath (p : KVPath) : Except CoreError ParsedPath := do
  let pp ← parsePath p
  refuse (pp.leadingSlash = false) (.kvAbsPathError p)
  return pp

namespace ParsedPath

/-- `Split`: the parent and the last component. -/
def split (p : ParsedPath) : Except CoreError (ParsedPath × KVPathComponent) :=
  match p.components.getLast? with
  | none => .error (.kvPathError "empty path")
  | some c => .ok (⟨p.components.dropLast, false, false⟩, c)

/-- `Export` -/
def exportPath (p : ParsedPath) : KVPath :=
  match p.components with
  | [] => if p.leadingSlash then ['/'] else []
  | cs => (if p.leadingSlash then ['/'] else []) ++ ['/'].intercalate cs ++
    (if p.trailingSlash then ['/'] else [])

end ParsedPath

/-! ## The parent of a path -/

/-- The parent and the name of an absolute path. -/
def splitAbsPath (path : KVPath) : Except CoreError (ParsedPath × KVPathComponent) := do
  let pap ← parseAbsPath path
  pap.split

/-- A component of a parsed path. -/
def IsComponent (c : KVPathComponent) : Prop := c ≠ [] ∧ '/' ∉ c

variable {parts cs : List (List Char)} {path : KVPath} {p : ParsedPath} {prevLen : Option ℕ}

theorem filter_pathPruneFrom : (pathPruneFrom prevLen parts).filter (· ≠ []) = parts.filter (· ≠ []) := by
  induction parts generalizing prevLen with
  | nil => rfl
  | cons c parts ih =>
    unfold pathPruneFrom
    split
    · rw [filter_cons, filter_cons, ih]
    · next hc =>
      -- what is dropped is empty
      have hempty : c = [] := by simpa using mt Or.inl hc
      rw [ih, hempty, filter_cons_of_neg (by simp)]

theorem pathPruneFrom_eq_nil (h : ∀ c ∈ parts, c = []) : pathPruneFrom (some 0) parts = [] := by
  induction parts with
  | nil => rfl
  | cons c parts ih =>
    obtain ⟨rfl, hparts⟩ := forall_mem_cons.mp h
    simpa [pathPruneFrom] using ih hparts

section Components

variable (hcs : ∀ c ∈ cs, c ≠ []) (trailing : Bool)
include hcs

/-- Nothing is dropped from components, of which the last may have a slash after it. -/
theorem pathPruneFrom_components (hprev : prevLen = some 0 → cs ≠ []) :
    pathPruneFrom prevLen (cs ++ if trailing then [[]] else []) = cs ++ if trailing then [[]] else [] := by
  induction cs generalizing prevLen with
  | nil =>
    have hprev : prevLen ≠ some 0 := fun h => hprev h rfl
    cases trailing <;> simp [pathPruneFrom, hprev]
  | cons c cs ih =>
    obtain ⟨hc, hcs⟩ := forall_mem_cons.mp hcs
    have hlen : 0 < c.length := length_pos_of_ne_nil hc
    rw [cons_append, pathPruneFrom, if_pos (.inl hlen), ih hcs fun h => by simp [hc] at h]

theorem parseParts_components (hne : cs ≠ []) (leading : Bool) :
    parseParts leading (cs ++ if trailing then [[]] else []) = ⟨cs, trailing, leading⟩ := by
  cases trailing with
  | true => simpa [parseParts] using hcs
  | false =>
    have hlast := hcs _ (getLast_mem hne)
    simpa [parseParts, getLast?_eq_some_getLast hne, hlast] using hcs

theorem parsePath_of_pathSplit (hne : cs ≠ []) {leading : Bool}
    (hsplit : pathSplit path = (if leading then [[]] else []) ++ (cs ++ if trailing then [[]] else [])) :
    parsePath path = .ok ⟨cs, trailing, leading⟩ := by
  obtain ⟨c, cs, rfl⟩ := exists_cons_of_ne_nil hne
  have hlen : path.length ≠ 0 := by
    intro h0
    have hmem : c ∈ pathSplit path := by simp [hsplit]
    rw [length_eq_zero_iff.mp h0] at hmem
    exact hcs c mem_cons_self (mem_singleton.mp hmem)
  rw [← parseParts_components hcs trailing hne leading, parsePath, refuse, if_neg hlen, hsplit]
  cases leading with
  | true =>
    have hprune := pathPruneFrom_components hcs trailing fun _ : some 0 = some 0 => hne
    exact congrArg (fun parts => Except.ok (parseParts true parts)) hprune
  | false =>
    rw [if_neg Bool.false_ne_true, nil_append, pathPrune, pathPruneFrom_components hcs trailing fun _ => hne]
    rcases c with _ | ⟨x, c⟩
    · exact absurd rfl (hcs [] mem_cons_self)
    · rfl

end Components

theorem not_mem_of_mem_splitOn {sep : Char} {cs part : List Char} (h : part ∈ cs.splitOn sep) : sep ∉ part := by
  by_cases hsep : sep ∈ cs
  · -- the list is cut at the first separator
    obtain ⟨first, rest, hcs, hfirst⟩ := eq_append_cons_of_mem hsep
    rw [hcs, splitOn_append_cons_self_of_not_mem hfirst] at h
    rcases mem_cons.mp h with rfl | h
    · exact hfirst
    · exact not_mem_of_mem_splitOn h
  · rw [splitOn_eq_singleton hsep, mem_singleton] at h
    rwa [h]
termination_by cs.length
decreasing_by
  rw [hcs, length_append, length_cons]
  omega

/-- The components are the parts that are not empty. A path without any is the root. -/
theorem parsePath_eq_ok (h : parsePath path = .ok p) :
    p.components = (pathSplit path).filter (· ≠ []) ∧
      (p.components = [] → p.leadingSlash = true ∧ p.trailingSlash = false) := by
  have hprune : (pathPrune (pathSplit path)).filter (· ≠ []) = (pathSplit path).filter (· ≠ []) :=
    filter_pathPruneFrom
  have h1 := of_bind_eq_ok h
  have hcomponents : p.components = (pathSplit path).filter (· ≠ []) := by
    rw [← hprune]
    split at h1
    · next heq =>
      cases h1
      rw [heq]
      rfl
    · next heq =>
      cases h1
      rw [heq, filter_cons_of_neg (by simp)]
      rfl
    · cases h1
      rfl
  refine ⟨hcomponents, fun hnil => ?_⟩
  -- all parts are empty, and of them only the first is kept
  rcases hparts : pathSplit path with _ | ⟨c, parts⟩
  · exact absurd hparts (splitOn_ne_nil _ _)
  have hempty : ∀ d ∈ pathSplit path, d = [] := by simpa [hnil] using hcomponents.symm
  obtain ⟨rfl, hrest⟩ := forall_mem_cons.mp (hparts ▸ hempty)
  have hroot : pathPrune (pathSplit path) = [[]] := by
    rw [hparts]
    exact congrArg (cons []) (pathPruneFrom_eq_nil hrest)
  rw [hroot] at h1
  cases h1
  exact ⟨rfl, rfl⟩

theorem isComponent_of_parsePath {c : KVPathComponent} (h : parsePath path = .ok p) (hc : c ∈ p.components) :
    IsComponent c := by
  rw [(parsePath_eq_ok h).1] at hc
  obtain ⟨hmem, hne⟩ := mem_filter.mp hc
  exact ⟨by simpa using hne, not_mem_of_mem_splitOn hmem⟩

theorem splitAbsPath_eq_ok {parent : ParsedPath} {file : KVPathComponent}
    (h : splitAbsPath path = .ok (parent, file)) :
    parent = ⟨parent.components, false, false⟩ ∧ ∀ c ∈ parent.components, IsComponent c := by
  obtain ⟨pap, hpap, hsplit⟩ := bind_eq_ok.mp h
  obtain ⟨pp, hpp, h1⟩ := bind_eq_ok.mp hpap
  have h2 := of_bind_eq_ok h1
  cases h2
  unfold ParsedPath.split at hsplit
  split at hsplit
  · cases hsplit
  · cases hsplit
    exact ⟨rfl, fun c hc => isComponent_of_parsePath hpp (dropLast_subset _ hc)⟩

/-- The text of components reads as them, also without any if the text is that of the root. -/
theorem parsePath_exportPath (hcs : ∀ c ∈ p.components, IsComponent c)
    (hroot : p.components = [] → p.leadingSlash = true ∧ p.trailingSlash = false) :
    parsePath p.exportPath = .ok p := by
  obtain ⟨cs, trailing, leading⟩ := p
  rcases cs with _ | ⟨c, cs⟩
  · obtain ⟨rfl, rfl⟩ := hroot rfl
    rfl
  have hcut : (['/'].intercalate (c :: cs)).splitOn '/' = c :: cs :=
    splitOn_intercalate '/' (fun d hd => (hcs d hd).2) (cons_ne_nil c cs)
  have hlead (text : KVPath) : ('/' :: text).splitOn '/' = [] :: text.splitOn '/' :=
    splitOn_append_cons_self [] text
  have htrail (text : KVPath) : (text ++ ['/']).splitOn '/' = text.splitOn '/' ++ [[]] :=
    splitOn_append_cons_self text []
  refine parsePath_of_pathSplit (fun d hd => (hcs d hd).1) trailing (cons_ne_nil c cs) ?_
  cases leading <;> cases trailing <;> simp [pathSplit, ParsedPath.exportPath, hlead, htrail, hcut]

/-- The text of a parent says what its components are. -/
theorem exportPath_injective {path' : KVPath} {parent parent' : ParsedPath}
    {file file' : KVPathComponent} (h : splitAbsPath path = .ok (parent, file))
    (h' : splitAbsPath path' = .ok (parent', file')) (heq : parent.exportPath = parent'.exportPath) :
    parent = parent' := by
  obtain ⟨hp, hcs⟩ := splitAbsPath_eq_ok h
  obtain ⟨hp', hcs'⟩ := splitAbsPath_eq_ok h'
  -- a parent is what its text is parsed to, but the text without components is refused
  have hread (q : ParsedPath) (hq : q = ⟨q.components, false, false⟩)
    (hcs : ∀ c ∈ q.components, IsComponent c) :
      q = (parsePath q.exportPath).toOption.getD ⟨[], false, false⟩ := by
    by_cases hnil : q.components = []
    · rw [hq, hnil]
      rfl
    · rw [parsePath_exportPath hcs fun hroot => absurd hroot hnil]
      rfl
  rw [hread parent hp hcs, heq, ← hread parent' hp' hcs']

theorem exportPath_injective_siblings : ∃ p p' f f',
    splitAbsPath "/a/x".toList = .ok (p, f) ∧ splitAbsPath "//a//y".toList = .ok (p', f') ∧ p = p' := by
  have h : splitAbsPath "/a/x".toList = .ok (⟨[['a']], false, false⟩, ['x']) := rfl
  have h' : splitAbsPath "//a//y".toList = .ok (⟨[['a']], false, false⟩, ['y']) := rfl
  exact ⟨_, _, _, _, h, h', exportPath_injective h h' rfl⟩

/-- What is parsed is read from its own text as it is. Its components are the pieces between the
slashes that are not empty. -/
theorem parsePath_roundTrip (h : parsePath path = .ok p) :
    parsePath p.exportPath = .ok p ∧
      ∃ pieces : List (List Char), pieces ≠ [] ∧ ['/'].intercalate pieces = path ∧ (∀ c ∈ pieces, '/' ∉ c) ∧
        p.components = pieces.filter (· ≠ []) := by
  obtain ⟨hcomponents, hroot⟩ := parsePath_eq_ok h
  refine ⟨parsePath_exportPath (fun c => isComponent_of_parsePath h) hroot, pathSplit path, ?_⟩
  refine ⟨splitOn_ne_nil _ _, intercalate_splitOn _, fun c => not_mem_of_mem_splitOn, hcomponents⟩

theorem parsePath_roundTrip_repeated :
    parsePath "//a///b/".toList = .ok ⟨["a".toList, "b".toList], true, true⟩ ∧
      parsePath (ParsedPath.exportPath ⟨["a".toList, "b".toList], true, true⟩) =
        .ok ⟨["a".toList, "b".toList], true, true⟩ :=
  ⟨by decide, (parsePath_roundTrip (show parsePath "//a///b/".toList = _ by decide)).1⟩

end Foks.KvClient
