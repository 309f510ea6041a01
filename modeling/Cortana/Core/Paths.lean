import Mathlib.Data.List.Basic
import Mathlib.Data.List.Infix
import Mathlib.Tactic

/-!
# Paths and the locations they name

A path is a word over an alphabet with a separator and a dot.  Its components
are the names between separators, where a repeated separator or a dot counts
for nothing and a leading separator or dot is a component of its own.  Walking
the components from a working directory leads to a location, the list of names
from the root; two directories overlap when one location is a prefix of the
other.
-/

namespace Pathname

/-! ## Locations -/

variable {α : Type*}

/-- The list of names from the root of the file system. -/
abbrev Location (α : Type*) := List (List α)

/-- One directory is the other one or lies inside it. -/
def Overlap (a b : Location α) : Prop := a <+: b ∨ b <+: a

theorem Overlap.symm {a b : Location α} (h : Overlap a b) : Overlap b a := Or.symm h

theorem Overlap.refl (a : Location α) : Overlap a a := Or.inl (List.prefix_refl a)

variable [DecidableEq α]

instance (a b : Location α) : Decidable (Overlap a b) :=
  inferInstanceAs (Decidable (a <+: b ∨ b <+: a))

/-! ## A file tree -/

/-- The files and directories of a file system, by location. -/
structure FileTree (α : Type*) where
  files : List (Location α)
  dirs : List (Location α)

namespace FileTree

/-- `fs::create_dir_all`: every prefix of the location becomes a directory,
unless one of them is a file. -/
@[grind =] def createDirAll (t : FileTree α) (loc : Location α) : Option (FileTree α) :=
  if loc.inits.any (· ∈ t.files) then none
  else some { t with dirs := t.dirs ++ loc.inits.filter (· ∉ t.dirs) }

/-- `OpenOptions::create_new` in a directory that exists. -/
@[grind =] def createNew (t : FileTree α) (loc : Location α) : Option (FileTree α) :=
  if loc ∈ t.files ∨ loc ∈ t.dirs ∨ loc.dropLast ∉ t.dirs then none
  else some { t with files := t.files ++ [loc] }

/-- `fs::remove_dir_all`: everything at the location and below is gone. -/
@[grind =] def removeDirAll (t : FileTree α) (loc : Location α) : FileTree α where
  files := t.files.filter fun f ↦ ¬loc <+: f
  dirs := t.dirs.filter fun d ↦ ¬loc <+: d

theorem createDirAll_eq_some {t u : FileTree α} {loc : Location α} :
    t.createDirAll loc = some u ↔ (∀ f ∈ t.files, ¬f <+: loc) ∧
      u = { t with dirs := t.dirs ++ loc.inits.filter (· ∉ t.dirs) } := by
  have hany : loc.inits.any (· ∈ t.files) = true ↔ ∃ f ∈ t.files, f <+: loc := by
    simp only [List.any_eq_true, List.mem_inits, decide_eq_true_eq]
    exact ⟨fun ⟨f, hpre, hf⟩ ↦ ⟨f, hf, hpre⟩, fun ⟨f, hf, hpre⟩ ↦ ⟨f, hpre, hf⟩⟩
  rw [createDirAll]
  split
  · rename_i h
    obtain ⟨f, hf, hpre⟩ := hany.mp h
    simp only [reduceCtorEq, false_iff, not_and]
    exact fun hall ↦ absurd hpre (hall f hf)
  · rename_i h
    have hall : ∀ f ∈ t.files, ¬f <+: loc := fun f hf hpre ↦ h (hany.mpr ⟨f, hf, hpre⟩)
    simp only [Option.some.injEq]
    exact ⟨fun heq ↦ ⟨hall, heq.symm⟩, fun heq ↦ heq.2.symm⟩

theorem createNew_eq_some {t u : FileTree α} {loc : Location α} :
    t.createNew loc = some u ↔ loc ∉ t.files ∧ loc ∉ t.dirs ∧ loc.dropLast ∈ t.dirs ∧
      u = { t with files := t.files ++ [loc] } := by
  rw [createNew]
  split
  · rename_i h
    simp only [reduceCtorEq, false_iff]
    rintro ⟨hfile, hdir, hparent, -⟩
    exact h.elim hfile fun h ↦ h.elim hdir fun h ↦ h hparent
  · rename_i h
    simp only [not_or, not_not] at h
    simp only [Option.some.injEq]
    exact ⟨fun heq ↦ ⟨h.1, h.2.1, h.2.2, heq.symm⟩, fun heq ↦ heq.2.2.2.symm⟩

/-- A file with all the directories it needs. -/
@[grind =] def createFile (t : FileTree α) (loc : Location α) : Option (FileTree α) :=
  (t.createDirAll loc.dropLast).bind fun t ↦ t.createNew loc

/-- A tree that holds the given files, and no directory but those on the way
to the root or to one of the files. -/
structure Filled (root : Location α) (locs : List (Location α)) (t : FileTree α) : Prop where
  files : t.files = locs
  dirs : ∀ d ∈ t.dirs, d <+: root ∨ ∃ l ∈ locs, d <+: l.dropLast

omit [DecidableEq α] in
theorem filled_inits (root : Location α) : Filled root [] ⟨[], root.inits⟩ where
  files := rfl
  dirs _ hd := .inl (List.mem_inits _ _ |>.mp hd)

theorem Filled.createFile {root loc : Location α} {locs : List (Location α)} {t : FileTree α}
    (h : Filled root locs t) (hroot : root <+: loc) (hne : loc ≠ root)
    (hfree : ∀ l ∈ locs, ¬Overlap l loc) :
    ∃ u, t.createFile loc = some u ∧ Filled root (locs ++ [loc]) u := by
  have hnil : loc ≠ [] := by
    rintro rfl
    exact hne (List.prefix_nil.mp hroot).symm
  have hparent : loc.dropLast <+: loc := List.dropLast_prefix loc
  have hproper : ¬loc <+: loc.dropLast := fun hpre ↦ by
    have hlen := hpre.length_le
    have hpos := List.length_pos_of_ne_nil hnil
    rw [List.length_dropLast] at hlen
    omega
  let made : FileTree α :=
    { t with dirs := t.dirs ++ loc.dropLast.inits.filter (· ∉ t.dirs) }
  have hmade : t.createDirAll loc.dropLast = some made := by
    refine Iff.mpr createDirAll_eq_some ⟨fun f hf hpre ↦ ?_, rfl⟩
    rw [h.files] at hf
    exact hfree f hf (.inl (hpre.trans hparent))
  have hdirs : ∀ d ∈ made.dirs, d <+: root ∨ ∃ l ∈ locs ++ [loc], d <+: l.dropLast := by
    intro d hd
    rcases List.mem_append.mp hd with hd | hd
    · rcases h.dirs d hd with hpre | ⟨l, hl, hpre⟩
      · exact .inl hpre
      · exact .inr ⟨l, List.mem_append_left _ hl, hpre⟩
    · have hpre := (List.mem_inits _ _).mp (List.mem_of_mem_filter hd)
      exact .inr ⟨loc, by simp, hpre⟩
  have hnew : made.createNew loc = some { made with files := made.files ++ [loc] } := by
    refine Iff.mpr createNew_eq_some ⟨fun hmem ↦ ?_, fun hmem ↦ ?_, ?_, rfl⟩
    · rw [show made.files = locs from h.files] at hmem
      exact hfree loc hmem (.refl loc)
    · rcases hdirs loc hmem with hpre | ⟨l, hl, hpre⟩
      · exact hne (hpre.eq_of_length (le_antisymm hpre.length_le hroot.length_le))
      · rcases List.mem_append.mp hl with hl | hl
        · exact hfree l hl (.inr (hpre.trans (List.dropLast_prefix l)))
        · rw [List.mem_singleton.mp hl] at hpre
          exact hproper hpre
    · by_cases hmem : loc.dropLast ∈ t.dirs
      · exact List.mem_append_left _ hmem
      · exact List.mem_append_right _ (by simp [hmem])
  have hcreate : t.createFile loc = some { made with files := made.files ++ [loc] } := by
    rw [FileTree.createFile, hmade]
    exact hnew
  have hfiles : made.files ++ [loc] = locs ++ [loc] := by
    rw [show made.files = locs from h.files]
  exact ⟨_, hcreate, hfiles, hdirs⟩

/-- Files of which none lies at or below another one can all be created. -/
theorem exists_createFiles {root : Location α} {locs : List (Location α)}
    (hroot : ∀ l ∈ locs, root <+: l ∧ l ≠ root) (hfree : locs.Pairwise fun l m ↦ ¬Overlap l m) :
    ∃ t, locs.foldlM FileTree.createFile ⟨[], root.inits⟩ = some t := by
  suffices hrun : ∀ (done : List (Location α)) (t : FileTree α), Filled root done t →
      (∀ l ∈ done, ∀ m ∈ locs, ¬Overlap l m) →
      ∃ u, locs.foldlM FileTree.createFile t = some u from
    hrun [] _ (filled_inits root) (by simp)
  induction locs with
  | nil => exact fun _ t _ _ ↦ ⟨t, rfl⟩
  | cons loc locs ih =>
      intro done t hfilled hdone
      obtain ⟨hpre, hne⟩ := hroot loc List.mem_cons_self
      obtain ⟨hhead, htail⟩ := List.pairwise_cons.mp hfree
      obtain ⟨u, hu, hnext⟩ := hfilled.createFile hpre hne fun l hl ↦
        hdone l hl loc List.mem_cons_self
      obtain ⟨v, hv⟩ := ih (fun l hl ↦ hroot l (List.mem_cons_of_mem _ hl)) htail _ u hnext
        fun l hl m hm ↦ by
          rcases List.mem_append.mp hl with hl | hl
          · exact hdone l hl m (List.mem_cons_of_mem _ hm)
          · rw [List.mem_singleton.mp hl]
            exact hhead m hm
      exact ⟨v, by rw [List.foldlM_cons, hu]; exact hv⟩

theorem mem_files_removeDirAll {t : FileTree α} {loc f : Location α} :
    f ∈ (t.removeDirAll loc).files ↔ f ∈ t.files ∧ ¬loc <+: f := by
  simp [removeDirAll]

end FileTree

/-! ## Paths -/

/-- The letters with a meaning in a path. -/
class Letters (α : Type*) where
  sep : α
  dot : α
  sep_ne_dot : sep ≠ dot

open Letters

variable [Letters α]

/-- What `std::path::Component` tells apart on Unix. -/
inductive Component (α : Type*) where
  | rootDir
  | curDir
  | parentDir
  | normal (name : List α)
deriving DecidableEq, Repr

/-- A name that is one component wherever it is written. -/
structure IsName (s : List α) : Prop where
  nonempty : s ≠ []
  noSep : (sep : α) ∉ s
  notCurrent : s ≠ [dot]
  notParent : s ≠ [dot, dot]

/-- The pieces between separators that are not empty. -/
@[grind =] def segments (p : List α) : List (List α) := (p.splitOn sep).filter (· ≠ [])

/-- The component a piece stands for. -/
@[grind =] def toComponent (s : List α) : Component α :=
  if s = [dot, dot] then .parentDir else .normal s

/-- `Path::has_root`. -/
@[grind =] def rooted (p : List α) : Bool := p.head? = some sep

/-- `Path::components`. -/
@[grind =] def components (p : List α) : List (Component α) :=
  (if rooted p then [.rootDir]
    else if (segments p).head? = some [dot] then [.curDir] else []) ++
    ((segments p).filter (· ≠ [dot])).map toComponent

/-- `Path::starts_with`. -/
@[grind =] def startsWith (p base : List α) : Bool := (components base).isPrefixOf (components p)

/-- `Path::join`. -/
@[grind =] def join (p q : List α) : List α :=
  if rooted q then q
  else if p = [] ∨ p.getLast? = some sep then p ++ q
  else p ++ sep :: q

/-- The location reached by one component. -/
@[grind =] def walk (loc : Location α) : Component α → Location α
  | .rootDir => []
  | .curDir => loc
  | .parentDir => loc.dropLast
  | .normal name => loc ++ [name]

/-- The location a path names from a working directory, symbolic links apart. -/
@[grind =] def resolve (cwd : Location α) (p : List α) : Location α := (components p).foldl walk cwd

theorem toComponent_of_isName {s : List α} (h : IsName s) : toComponent s = .normal s :=
  if_neg h.notParent

@[simp] theorem segments_nil : segments ([] : List α) = [] := by
  simp [segments, List.splitOn_nil]

theorem segments_append_sep (p q : List α) :
    segments (p ++ sep :: q) = segments p ++ segments q := by
  rw [segments, List.splitOn_append_cons_self, List.filter_append]
  rfl

theorem segments_singleton {s : List α} (hne : s ≠ []) (hsep : (sep : α) ∉ s) :
    segments s = [s] := by
  rw [segments, List.splitOn_eq_singleton hsep]
  simp [hne]

theorem segments_of_isName {s : List α} (h : IsName s) : segments s = [s] :=
  segments_singleton h.nonempty h.noSep

theorem segments_join {p q : List α} (hq : rooted q = false) :
    segments (join p q) = segments p ++ segments q := by
  have hroot : ¬rooted q = true := by simp [hq]
  rw [join, if_neg hroot]
  split
  · rename_i hp
    rcases hp with rfl | hp
    · rw [segments_nil, List.nil_append, List.nil_append]
    · obtain ⟨front, rfl⟩ := List.getLast?_eq_some_iff.mp hp
      rw [segments_append_sep, segments_nil, List.append_nil, List.append_assoc,
        List.singleton_append, segments_append_sep]
  · exact segments_append_sep p q

theorem not_rooted {s : List α} (hsep : (sep : α) ∉ s) : rooted s = false := by
  cases s with
  | nil => simp [rooted]
  | cons c rest =>
      have hc : c ≠ sep := fun h ↦ hsep (by simp [h])
      simp [rooted, hc]

theorem rooted_join {p q : List α} (hq : rooted q = false) :
    rooted (join p q) = rooted p := by
  have hroot : ¬rooted q = true := by simp [hq]
  rw [join, if_neg hroot]
  cases p with
  | nil => simpa [rooted] using hq
  | cons c rest => split <;> simp [rooted]

/-- A path of plain names is the list of them. -/
theorem components_of_isName_segments {p : List α} (hroot : rooted p = false)
    (h : ∀ s ∈ segments p, IsName s) : components p = (segments p).map .normal := by
  have hhead : (segments p).head? ≠ some [dot] := fun hdot ↦
    (h _ (List.mem_of_mem_head? hdot)).notCurrent rfl
  have hkeep : (segments p).filter (· ≠ [dot]) = segments p :=
    List.filter_eq_self.mpr fun s hs ↦ by simpa using (h s hs).notCurrent
  rw [components, if_neg (by simp [hroot]), if_neg hhead, hkeep, List.nil_append]
  exact List.map_congr_left fun s hs ↦ toComponent_of_isName (h s hs)

theorem resolve_of_isName_segments {cwd : Location α} {p : List α} (hroot : rooted p = false)
    (h : ∀ s ∈ segments p, IsName s) : resolve cwd p = cwd ++ segments p := by
  have hwalk : ∀ (names : List (List α)) (loc : Location α),
      (names.map Component.normal).foldl walk loc = loc ++ names := by
    intro names
    induction names with
    | nil => simp
    | cons s names ih =>
        intro loc
        rw [List.map_cons, List.foldl_cons, ih, walk, List.append_assoc]
        rfl
  rw [resolve, components_of_isName_segments hroot h, hwalk]

end Pathname
