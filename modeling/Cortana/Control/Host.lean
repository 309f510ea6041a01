import Cortana.Core.Paths
import Cortana.Model.Digest

/-!
# The host of a control plane

What the control planes use of the machine they run on: the clock, new
identifiers, and the file system below a working directory, where a data plane
is a directory with a store in it.  Every call may come from a process of its
own, with paths that are relative to its own directory.
-/

namespace Cortana

open Pathname

instance : Letters Char where
  sep := '/'
  dot := '.'
  sep_ne_dot := by decide

/-- What the control planes use of other crates. -/
structure ControlCodec where
  sha : Sha256
  /-- `to_rfc3339` of an instant in nanoseconds. -/
  rfc3339 : ℤ → String
  /-- `DateTime::parse_from_rfc3339`. -/
  instant : String → Option ℤ

/-- A codec to evaluate the control planes with. -/
def ControlCodec.sample : ControlCodec where
  sha := .sample
  rfc3339 instant := toString instant
  instant text :=
    if text.toList.all Char.isDigit then
      some (text.toList.foldl (fun n c ↦ n * 10 + (c.toNat - 48)) 0 : ℕ)
    else none

/-- A process on the machine: its working directory, and `registry_file`, the path it
opened the registry by. -/
structure Host where
  cwd : Location Char
  registryFile : String

/-- A process in the root directory. -/
def Host.sample : Host := ⟨[], "/control"⟩

/-- The time of a call, the `Uuid::new_v4` it may draw, and the process that makes it. -/
structure Occasion where
  now : ℤ
  newId : String
  host : Host

def storeFile : String := "store.sqlite3"

namespace Host

variable (host : Host) (tree : FileTree Char) (path : String)

/-- Where a path leads. -/
@[grind =] def resolve : Location Char := Pathname.resolve host.cwd path.toList

/-- Where the walk along a path comes by, the end included. -/
@[grind =] def stations : List (Location Char) :=
  (components path.toList).inits.map fun walked ↦ walked.foldl walk host.cwd

/-- `fs::create_dir_all`. -/
@[grind =] def createDirAll : Option (FileTree Char) :=
  (host.stations path).foldlM FileTree.createDirAll tree

/-- `Path::exists` of a directory. -/
@[grind =] def isDir : Bool := (host.stations path).all (· ∈ tree.dirs)

/-- Where the store of a data plane is. -/
@[grind =] def storeAt : Location Char := host.resolve path ++ [storeFile.toList]

/-- `Store::open` in an existing directory: a store that is there is opened. -/
@[grind =] def openStore : Option (FileTree Char) :=
  if host.storeAt path ∈ tree.dirs then none
  else if host.storeAt path ∈ tree.files then some tree
  else some { tree with files := tree.files ++ [host.storeAt path] }

/-- The directory is removed with all below it, where it exists. -/
@[grind =] def destroy : FileTree Char :=
  if host.isDir tree path then tree.removeDirAll (host.resolve path) else tree

variable {host tree path} {tree' : FileTree Char} {f : Location Char}

theorem files_createDirAll (h : host.createDirAll tree path = some tree') :
    tree'.files = tree.files := by
  have hrun : ∀ (locs : List (Location Char)) (t : FileTree Char),
      locs.foldlM FileTree.createDirAll t = some tree' → tree'.files = t.files := by
    intro locs
    induction locs with
    | nil =>
        intro t ht
        obtain rfl : t = tree' := by simpa using ht
        rfl
    | cons loc locs ih =>
        intro t ht
        rw [List.foldlM_cons] at ht
        obtain ⟨u, hu, hrest⟩ := Option.bind_eq_some_iff.mp ht
        rw [ih u hrest, (Iff.mp FileTree.createDirAll_eq_some hu).2]
  exact hrun _ _ h

theorem mem_files_openStore (h : host.openStore tree path = some tree') :
    f ∈ tree'.files ↔ f ∈ tree.files ∨ f = host.storeAt path := by
  rw [openStore] at h
  split at h
  · cases h
  · split at h
    · rename_i hmem
      obtain rfl := Option.some.inj h
      exact ⟨Or.inl, fun hf ↦ hf.elim id fun heq ↦ heq ▸ hmem⟩
    · obtain rfl := Option.some.inj h
      simp

end Host

end Cortana
