import Mathlib.Data.List.Basic
import Mathlib.Logic.Function.Basic
import Mathlib.Tactic

/-!
# Publishing the outputs of a migration

`migration.rs`: outputs are written to temporary files and renamed into place
one after the other, with what was there before kept under a backup name.  A
failure undoes the outputs in reverse order.  The disk is a map from paths to
contents; every operation on it may fail and then changes nothing.
-/

namespace Cortana

/-! ## The disk -/

/-- What is stored at each path. -/
abbrev Disk := String → Option (List UInt8)

namespace Disk

/-- `fs::remove_file`. -/
@[grind =] def remove (disk : Disk) (path : String) : Disk := Function.update disk path none

/-- `fs::rename`, which needs its source. -/
@[grind =] def rename (disk : Disk) (source target : String) : Option Disk :=
  (disk source).map fun content ↦
    Function.update (disk.remove source) target (some content)

variable {disk disk' : Disk} {source target path : String}

theorem remove_of_ne (h : path ≠ source) : disk.remove source path = disk path :=
  Function.update_of_ne h _ _

@[simp] theorem remove_self : disk.remove source source = none := Function.update_self _ _ _

theorem rename_target (h : disk.rename source target = some disk') :
    disk' target = disk source := by
  obtain ⟨content, hcontent, rfl⟩ := Option.map_eq_some_iff.mp h
  rw [Function.update_self, hcontent]

theorem rename_source (h : disk.rename source target = some disk') (hne : source ≠ target) :
    disk' source = none := by
  obtain ⟨content, -, rfl⟩ := Option.map_eq_some_iff.mp h
  rw [Function.update_of_ne hne, remove_self]

theorem rename_of_ne (h : disk.rename source target = some disk') (hsource : path ≠ source)
    (htarget : path ≠ target) : disk' path = disk path := by
  obtain ⟨content, -, rfl⟩ := Option.map_eq_some_iff.mp h
  rw [Function.update_of_ne htarget, remove_of_ne hsource]

end Disk

/-! ## The transaction -/

structure PendingOutput where
  path : String
  temporary : String
  backup : Option String
  published : Bool

/-- The steps of the publication of one output that may fail. -/
inductive PublishPoint where
  | exists
  | regular
  | backup
  | install

/-- The steps of its rollback. -/
inductive UndoPoint where
  | remove
  | restore
  | discard

/-- Which steps fail in a run, and with which error. -/
structure Faults where
  publish : ℕ → PublishPoint → Option String
  undo : ℕ → UndoPoint → Option String
  /-- A file that is removed with the error ignored. -/
  cleanup : ℕ → Bool

/-- The error of a publication, and of the rollback after it. -/
inductive PublishError where
  | failed (message : String)
  | incomplete (message rollback : String)
deriving DecidableEq

namespace Migration

variable (replace : Bool) (faults : Faults) (failAt : Option ℕ) (backupName : ℕ → String)

/-- `MigrationTransaction::stage`, with the name that is drawn for the
temporary file. -/
def stage (disk : Disk) (outputs : List PendingOutput) (path temporary : String)
    (content : List UInt8) : Except String (Disk × List PendingOutput) :=
  if (disk path).isSome ∧ replace = false then
    .error ("refusing to replace " ++ path ++ "; use --force to replace migrated files")
  else if ∃ output ∈ outputs, output.path = path then
    .error ("migration output is staged more than once: " ++ path)
  else
    .ok (Function.update disk temporary (some content),
      outputs ++ [{ path := path, temporary := temporary, backup := none, published := false }])

/-- What is there is renamed to the backup, if there is anything. -/
def takeBackup (disk : Disk) (index : ℕ) (output : PendingOutput) :
    Disk × PendingOutput × Option String :=
  match faults.publish index .exists with
  | some message => (disk, output, some message)
  | none =>
      if disk output.path = none then (disk, output, none)
      else if replace = false then
        (disk, output,
          some ("refusing to replace " ++ output.path ++
            "; use --force to replace migrated files"))
      else
        match faults.publish index .regular with
        | some message => (disk, output, some message)
        | none =>
            match faults.publish index .backup, disk.rename output.path (backupName index) with
            | none, some disk' => (disk', { output with backup := some (backupName index) }, none)
            | _, _ =>
                (disk, output,
                  some ("failed to stage existing migration output " ++ output.path))

/-- The temporary file is renamed into place. -/
def install (disk : Disk) (index : ℕ) (output : PendingOutput) :
    Disk × PendingOutput × Option String :=
  match faults.publish index .install, disk.rename output.temporary output.path with
  | none, some disk' => (disk', { output with published := true }, none)
  | _, _ => (disk, output, some ("failed to publish " ++ output.path))

/-- One pass of the loop of `publish_with_failure`. -/
def publishOne (disk : Disk) (index : ℕ) (output : PendingOutput) :
    Disk × PendingOutput × Option String :=
  if failAt = some index then
    (disk, output,
      some ("injected migration publication failure at output " ++ toString index))
  else
    match takeBackup replace faults backupName disk index output with
    | (disk, output, some message) => (disk, output, some message)
    | (disk, output, none) => install faults disk index output

/-- The loop, which stops at the first error. -/
def publishFrom (disk : Disk) (index : ℕ) :
    List PendingOutput → Disk × List PendingOutput × Option String
  | [] => (disk, [], none)
  | output :: rest =>
      match publishOne replace faults failAt backupName disk index output with
      | (disk, output, some message) => (disk, output :: rest, some message)
      | (disk, output, none) =>
          let (disk, rest, failure) := publishFrom disk (index + 1) rest
          (disk, output :: rest, failure)

/-- A file is removed; that there is none is no error. -/
def discard (fault : Option String) (state : Disk × Option String) (path message : String) :
    Disk × Option String :=
  match fault with
  | none => (state.1.remove path, state.2)
  | some _ => (state.1, state.2.or (some message))

/-- A published file is removed again. -/
def unpublish (index : ℕ) (output : PendingOutput) (state : Disk × Option String) :
    Disk × Option String :=
  if output.published then
    discard (faults.undo index .remove) state output.path
      ("failed to remove partially published " ++ output.path)
  else state

/-- A backup is put back. -/
def restore (index : ℕ) (output : PendingOutput) (state : Disk × Option String) :
    Disk × Option String :=
  match output.backup with
  | none => state
  | some backup =>
      match faults.undo index .restore, state.1.rename backup output.path with
      | none, some disk => (disk, state.2)
      | _, _ =>
          (state.1, state.2.or (some ("failed to restore " ++ output.path ++ " from backup")))

/-- One pass of the loop of `rollback`. -/
def undoOne (index : ℕ) (output : PendingOutput) (state : Disk × Option String) :
    Disk × Option String :=
  discard (faults.undo index .discard) (restore faults index output (unpublish faults index output state))
    output.temporary ("failed to remove staged " ++ output.path)

/-- `MigrationTransaction::rollback`: the last output first, and the first
error is kept. -/
def rollback (disk : Disk) (index : ℕ) : List PendingOutput → Disk × Option String
  | [] => (disk, none)
  | output :: rest => undoOne faults index output (rollback disk (index + 1) rest)

/-- The files that `Drop` looks for. -/
def leftovers (output : PendingOutput) : List String :=
  output.temporary :: output.backup.toList

/-- Files that are left are removed, where that works. -/
def sweep (disk : Disk) (index : ℕ) : List String → Disk
  | [] => disk
  | path :: rest =>
      sweep (if faults.cleanup index then disk.remove path else disk) (index + 1) rest

/-- `MigrationTransaction::publish_with_failure`, with the `Drop` that follows
it. -/
def publishWithFailure (disk : Disk) (outputs : List PendingOutput) :
    Disk × Except PublishError Unit :=
  match publishFrom replace faults failAt backupName disk 0 outputs with
  | (disk, outputs, none) =>
      let backups := outputs.filterMap PendingOutput.backup
      (sweep faults disk 0 (backups ++ outputs.flatMap leftovers), .ok ())
  | (disk, outputs, some message) =>
      match rollback faults disk 0 outputs with
      | (disk, none) =>
          (sweep faults disk 0 (outputs.map PendingOutput.temporary), .error (.failed message))
      | (disk, some incomplete) =>
          (sweep faults disk 0 (outputs.map PendingOutput.temporary),
            .error (.incomplete message incomplete))

variable {replace faults failAt backupName} {disk disk' : Disk} {index : ℕ}
  {output output' : PendingOutput} {outputs : List PendingOutput} {failure : Option String}

/-! ## What one output goes through -/

/-- How far the publication of an output got. -/
inductive Published (name : String) (disk : Disk) (output : PendingOutput) :
    Disk → PendingOutput → Option String → Prop where
  | untouched (message : String) : Published name disk output disk output (some message)
  | moved {disk' : Disk} (message : String) : disk.rename output.path name = some disk' →
      Published name disk output disk' { output with backup := some name } (some message)
  | created {disk' : Disk} : disk output.path = none →
      disk.rename output.temporary output.path = some disk' →
      Published name disk output disk' { output with published := true } none
  | replaced {moved disk' : Disk} : disk.rename output.path name = some moved →
      moved.rename output.temporary output.path = some disk' →
      Published name disk output disk' { output with backup := some name, published := true } none

theorem install_eq (faults : Faults) (disk : Disk) (index : ℕ) (output : PendingOutput) :
    (∃ message, install faults disk index output = (disk, output, some message)) ∨
      ∃ disk', disk.rename output.temporary output.path = some disk' ∧
        install faults disk index output = (disk', { output with published := true }, none) := by
  rw [install]
  split
  · rename_i disk' _ hrename
    exact .inr ⟨disk', hrename, rfl⟩
  · exact .inl ⟨_, rfl⟩

theorem takeBackup_eq (replace : Bool) (faults : Faults) (backupName : ℕ → String) (disk : Disk)
    (index : ℕ) (output : PendingOutput) :
    (∃ message, takeBackup replace faults backupName disk index output =
        (disk, output, some message)) ∨
      (disk output.path = none ∧
        takeBackup replace faults backupName disk index output = (disk, output, none)) ∨
      ∃ disk', disk.rename output.path (backupName index) = some disk' ∧
        takeBackup replace faults backupName disk index output =
          (disk', { output with backup := some (backupName index) }, none) := by
  rw [takeBackup]
  split
  · exact .inl ⟨_, rfl⟩
  · split
    · rename_i habsent
      exact .inr (.inl ⟨habsent, rfl⟩)
    · split
      · exact .inl ⟨_, rfl⟩
      · split
        · exact .inl ⟨_, rfl⟩
        · split
          · rename_i disk' _ hrename
            exact .inr (.inr ⟨disk', hrename, rfl⟩)
          · exact .inl ⟨_, rfl⟩

theorem published_publishOne (replace : Bool) (faults : Faults) (failAt : Option ℕ)
    (backupName : ℕ → String) (disk : Disk) (index : ℕ) (output : PendingOutput) :
    Published (backupName index) disk output
      (publishOne replace faults failAt backupName disk index output).1
      (publishOne replace faults failAt backupName disk index output).2.1
      (publishOne replace faults failAt backupName disk index output).2.2 := by
  rw [publishOne]
  split
  · exact .untouched _
  · rcases takeBackup_eq replace faults backupName disk index output with
      ⟨message, htake⟩ | ⟨habsent, htake⟩ | ⟨disk', hrename, htake⟩
    · rw [htake]
      exact .untouched message
    · rw [htake]
      rcases install_eq faults disk index output with
        ⟨message, hinstall⟩ | ⟨disk', hrename, hinstall⟩
      · dsimp only
        rw [hinstall]
        exact .untouched message
      · dsimp only
        rw [hinstall]
        exact .created habsent hrename
    · rw [htake]
      rcases install_eq faults disk' index
        { output with backup := some (backupName index) } with
        ⟨message, hinstall⟩ | ⟨disk'', hrename', hinstall⟩
      · dsimp only
        rw [hinstall]
        exact .moved message hrename
      · dsimp only
        rw [hinstall]
        exact .replaced hrename hrename'

/-! ## Undoing it -/

/-- The disk without some of its files. -/
def without (disk : Disk) (paths : List String) : Disk :=
  fun path ↦ if path ∈ paths then none else disk path

theorem discard_eq_none {fault : Option String} {state : Disk × Option String}
    {path message : String} (h : (discard fault state path message).2 = none) :
    state.2 = none ∧ (discard fault state path message).1 = state.1.remove path := by
  cases fault with
  | none => exact ⟨h, rfl⟩
  | some _ => simp [discard] at h

theorem unpublish_eq_none {state : Disk × Option String}
    (h : (unpublish faults index output state).2 = none) :
    state.2 = none ∧ (unpublish faults index output state).1 =
      if output.published then state.1.remove output.path else state.1 := by
  rw [unpublish] at h ⊢
  split
  · rename_i hpublished
    rw [if_pos hpublished] at h
    exact discard_eq_none h
  · rename_i hpublished
    rw [if_neg hpublished] at h
    exact ⟨h, rfl⟩

theorem restore_eq_none {state : Disk × Option String}
    (h : (restore faults index output state).2 = none) :
    state.2 = none ∧ (output.backup = none → (restore faults index output state).1 = state.1) ∧
      ∀ name, output.backup = some name →
        state.1.rename name output.path = some (restore faults index output state).1 := by
  rw [restore] at h ⊢
  split at h
  · rename_i hbackup
    rw [hbackup]
    exact ⟨h, fun _ ↦ rfl, nofun⟩
  · rename_i backup hbackup
    rw [hbackup]
    split at h
    · rename_i disk hfault hrename
      refine ⟨h, nofun, fun name hname ↦ ?_⟩
      obtain rfl := Option.some.inj hname
      exact hrename
    · simp at h

theorem without_of_mem {paths : List String} {path : String} (h : path ∈ paths) :
    without disk paths path = none := if_pos h

theorem without_of_notMem {paths : List String} {path : String} (h : path ∉ paths) :
    without disk paths path = disk path := if_neg h

/-- A disk that agrees with another one but for a temporary file that was
removed. -/
theorem remove_eq_without {restored : Disk} {paths : List String} {temporary : String}
    (h : ∀ p, p ≠ temporary → restored p = without disk paths p) :
    restored.remove temporary = without disk (temporary :: paths) := by
  funext p
  by_cases hp : p = temporary
  · rw [hp, Disk.remove_self, without_of_mem List.mem_cons_self]
  · rw [Disk.remove_of_ne hp, h p hp]
    simp [without, hp]

/-- A backup that is put back restores what there was at the path. -/
theorem restored_eq {base restored : Disk} {paths : List String} {name : String}
    (hrename : base.rename name output.path = some restored) (habsent : disk name = none)
    (hname : name ≠ output.path) (hpath : output.path ∉ paths)
    (hkept : base name = disk output.path)
    (hbase : ∀ p, p ≠ output.path → p ≠ name → p ≠ output.temporary →
      base p = without disk paths p) :
    restored.remove output.temporary = without disk (output.temporary :: paths) := by
  refine remove_eq_without fun p htemporary ↦ ?_
  by_cases hp : p = output.path
  · rw [hp, Disk.rename_target hrename, hkept, without_of_notMem hpath]
  · by_cases hn : p = name
    · rw [hn, Disk.rename_source hrename hname]
      simp [without, habsent]
    · rw [Disk.rename_of_ne hrename hn hp, hbase p hp hn htemporary]

/-- A rollback without an error leaves of one output what was there before,
whatever happened to later outputs. -/
theorem undoOne_of_published {name : String} {state : Disk × Option String} {paths : List String}
    (h : Published name disk output disk' output' failure) (hbackup : output.backup = none)
    (hpublished : output.published = false) (habsent : disk name = none)
    (hname : name ≠ output.path)
    (hnameTemporary : name ≠ output.temporary)
    (hpath : output.path ∉ paths) (hnamePaths : name ∉ paths)
    (hstate : state.1 = without disk' paths)
    (hundo : (undoOne faults index output' state).2 = none) :
    state.2 = none ∧
      (undoOne faults index output' state).1 = without disk (output.temporary :: paths) := by
  obtain ⟨hrestored, hdisk⟩ := discard_eq_none hundo
  obtain ⟨hremoved, hkept, hrenamed⟩ := restore_eq_none hrestored
  obtain ⟨hfirst, hunpublish⟩ := unpublish_eq_none hremoved
  refine ⟨hfirst, ?_⟩
  rw [undoOne, hdisk]
  rw [hunpublish, hstate] at hkept hrenamed
  cases h with
  | untouched =>
      rw [hkept hbackup, hpublished]
      exact remove_eq_without fun p _ ↦ rfl
  | moved message hmoved =>
      have hback := hrenamed name rfl
      rw [if_neg (by simp [hpublished])] at hback
      refine restored_eq hback habsent hname hpath ?_ fun p hp hn _ ↦ ?_
      · rw [without_of_notMem hnamePaths, Disk.rename_target hmoved]
      · rw [without, without, Disk.rename_of_ne hmoved hp hn]
  | created hnone hinstalled =>
      rw [hkept hbackup, if_pos rfl]
      refine remove_eq_without fun p hp ↦ ?_
      by_cases hpp : p = output.path
      · rw [hpp, Disk.remove_self, without_of_notMem hpath, hnone]
      · rw [Disk.remove_of_ne hpp, without, without, Disk.rename_of_ne hinstalled hp hpp]
  | @replaced moved _ hmoved hinstalled =>
      have hback := hrenamed name rfl
      rw [if_pos rfl] at hback
      refine restored_eq hback habsent hname hpath ?_ fun p hp hn ht ↦ ?_
      · rw [Disk.remove_of_ne hname, without_of_notMem hnamePaths,
          Disk.rename_of_ne hinstalled hnameTemporary hname, Disk.rename_target hmoved]
      · rw [Disk.remove_of_ne hp, without, without, Disk.rename_of_ne hinstalled ht hp,
          Disk.rename_of_ne hmoved hp hn]

theorem restore_of_kept {state : Disk × Option String}
    (hquiet : ∀ point, faults.undo index point = none) (hstate : state.2 = none)
    (hkept : ∀ name, output.backup = some name → (state.1 name).isSome) :
    (restore faults index output state).2 = none := by
  rw [restore]
  cases hbackup : output.backup with
  | none => exact hstate
  | some name =>
      obtain ⟨content, hcontent⟩ := Option.isSome_iff_exists.mp (hkept name hbackup)
      simp [Disk.rename, hcontent, hquiet, hstate]

theorem unpublish_of_quiet {state : Disk × Option String}
    (hquiet : ∀ point, faults.undo index point = none) :
    unpublish faults index output state =
      (if output.published then state.1.remove output.path else state.1, state.2) := by
  rw [unpublish, hquiet]
  split <;> rfl

/-- Where no step of the rollback fails, an output is undone: its backup is there. -/
theorem undoOne_of_quiet {name : String} {state : Disk × Option String} {paths : List String}
    (hquiet : ∀ point, faults.undo index point = none)
    (h : Published name disk output disk' output' failure) (hbackup : output.backup = none)
    (hpublished : output.published = false) (hname : name ≠ output.path)
    (hnameTemporary : name ≠ output.temporary) (hnamePaths : name ∉ paths)
    (hdisk : state.1 = without disk' paths) (hstate : state.2 = none) :
    (undoOne faults index output' state).2 = none := by
  have hthere : ∀ {moved : Disk}, disk.rename output.path name = some moved →
      (moved name).isSome := by
    intro moved hmoved
    rw [Disk.rename_target hmoved]
    obtain ⟨content, hcontent, -⟩ := Option.map_eq_some_iff.mp hmoved
    rw [hcontent]
    rfl
  rw [undoOne, hquiet]
  change (restore _ _ _ _).2 = none
  rw [unpublish_of_quiet hquiet]
  refine restore_of_kept hquiet hstate fun backup hsome ↦ ?_
  rw [hdisk]
  cases h with
  | untouched | created => cases hbackup.symm.trans hsome
  | moved _ hmoved =>
      obtain rfl := Option.some.inj hsome
      rw [if_neg (by simp [hpublished])]
      change (without disk' paths name).isSome
      rw [without_of_notMem hnamePaths]
      exact hthere hmoved
  | replaced hmoved hinstalled =>
      obtain rfl := Option.some.inj hsome
      rw [if_pos rfl]
      change ((without disk' paths).remove output.path name).isSome
      rw [Disk.remove_of_ne hname, without_of_notMem hnamePaths,
        Disk.rename_of_ne hinstalled hnameTemporary hname]
      exact hthere hmoved

/-! ## The whole list -/

/-- Outputs that were staged, and the names that are drawn for the backups:
every name is drawn once. -/
structure Ready (backupName : ℕ → String) (disk : Disk) (index : ℕ)
    (outputs : List PendingOutput) : Prop where
  staged : ∀ o ∈ outputs, o.backup = none ∧ o.published = false
  temporaries : (outputs.map PendingOutput.temporary).Nodup
  aside : ∀ o ∈ outputs, ∀ p ∈ outputs, o.temporary ≠ p.path
  drawn : Function.Injective backupName
  backups : ∀ n, index ≤ n →
    disk (backupName n) = none ∧ ∀ o ∈ outputs, backupName n ≠ o.path ∧ backupName n ≠ o.temporary

/-- Where nothing was done, only the temporary files are there to be undone. -/
theorem rollback_staged (hstaged : ∀ o ∈ outputs, o.backup = none ∧ o.published = false)
    (hundo : (rollback faults disk index outputs).2 = none) :
    (rollback faults disk index outputs).1 =
      without disk (outputs.map PendingOutput.temporary) := by
  induction outputs generalizing index with
  | nil =>
      funext p
      rfl
  | cons output rest ih =>
      obtain ⟨hbackup, hpublished⟩ := hstaged output List.mem_cons_self
      obtain ⟨hrestored, hdisk⟩ := discard_eq_none hundo
      obtain ⟨hremoved, hkept, -⟩ := restore_eq_none hrestored
      obtain ⟨hfirst, hunpublish⟩ := unpublish_eq_none hremoved
      have hrest := ih (fun o ho ↦ hstaged o (List.mem_cons_of_mem _ ho)) hfirst
      rw [rollback, undoOne, hdisk, hkept hbackup, hunpublish, if_neg (by simp [hpublished]),
        hrest]
      exact remove_eq_without fun _ _ ↦ rfl

theorem rollback_staged_of_quiet (hquiet : ∀ index point, faults.undo index point = none)
    (hstaged : ∀ o ∈ outputs, o.backup = none ∧ o.published = false) :
    (rollback faults disk index outputs).2 = none := by
  induction outputs generalizing index with
  | nil => rfl
  | cons output rest ih =>
      obtain ⟨hbackup, hpublished⟩ := hstaged output List.mem_cons_self
      have hrest := @ih (index + 1) fun o ho ↦ hstaged o (List.mem_cons_of_mem _ ho)
      rw [rollback, undoOne, hquiet]
      change (restore _ _ _ _).2 = none
      rw [unpublish_of_quiet (hquiet index)]
      refine restore_of_kept (hquiet index) hrest fun name hname ↦ ?_
      rw [hbackup] at hname
      cases hname

/-- A path that is neither the target nor the temporary file nor the backup of
an output is left alone by its publication. -/
theorem Published.of_ne {name path : String}
    (h : Published name disk output disk' output' failure) (hpath : path ≠ output.path)
    (htemporary : path ≠ output.temporary) (hname : path ≠ name) : disk' path = disk path := by
  cases h with
  | untouched => rfl
  | moved _ hmoved => exact Disk.rename_of_ne hmoved hpath hname
  | created _ hinstalled => exact Disk.rename_of_ne hinstalled htemporary hpath
  | replaced hmoved hinstalled =>
      rw [Disk.rename_of_ne hinstalled htemporary hpath, Disk.rename_of_ne hmoved hpath hname]

theorem Published.ready {rest : List PendingOutput}
    (h : Published (backupName index) disk output disk' output' failure)
    (hready : Ready backupName disk index (output :: rest)) :
    Ready backupName disk' (index + 1) rest where
  staged o ho := hready.staged o (List.mem_cons_of_mem _ ho)
  temporaries := (List.nodup_cons.mp hready.temporaries).2
  aside o ho p hp := hready.aside o (List.mem_cons_of_mem _ ho) p (List.mem_cons_of_mem _ hp)
  drawn := hready.drawn
  backups n hn := by
    have hle : index ≤ n := Nat.le_of_succ_le hn
    obtain ⟨habsent, hapart⟩ := hready.backups n hle
    obtain ⟨hpath, htemporary⟩ := hapart output List.mem_cons_self
    have hne : backupName n ≠ backupName index := fun heq ↦ by
      have := hready.drawn heq
      omega
    refine ⟨?_, fun o ho ↦ hapart o (List.mem_cons_of_mem _ ho)⟩
    rw [h.of_ne hpath htemporary hne, habsent]

/-- Whatever the loop did before it stopped, a rollback without an error takes
the disk back to what it was, without the temporary files. -/
theorem rollback_publishFrom (hready : Ready backupName disk index outputs) :
    let out := publishFrom replace faults failAt backupName disk index outputs
    (rollback faults out.1 index out.2.1).2 = none →
      (rollback faults out.1 index out.2.1).1 =
        without disk (outputs.map PendingOutput.temporary) := by
  induction outputs generalizing disk index with
  | nil => exact fun _ ↦ rfl
  | cons output rest ih =>
      obtain ⟨hbackup, hpublished⟩ := hready.staged output List.mem_cons_self
      obtain ⟨habsent, hapart⟩ := hready.backups index le_rfl
      obtain ⟨hname, hnameTemporary⟩ := hapart output List.mem_cons_self
      have hpath : output.path ∉ rest.map PendingOutput.temporary := by
        intro hmem
        obtain ⟨o, ho, heq⟩ := List.mem_map.mp hmem
        exact hready.aside o (List.mem_cons_of_mem _ ho) output List.mem_cons_self heq
      have hnamePaths : backupName index ∉ rest.map PendingOutput.temporary := by
        intro hmem
        obtain ⟨o, ho, heq⟩ := List.mem_map.mp hmem
        exact (hapart o (List.mem_cons_of_mem _ ho)).2 heq.symm
      have hone := published_publishOne replace faults failAt backupName disk index output
      rw [publishFrom]
      generalize publishOne replace faults failAt backupName disk index output = one at hone
      obtain ⟨disk', output', failure⟩ := one
      have hrest := hone.ready hready
      cases failure with
      | some message =>
          intro _ hundo
          have hfirst : (rollback faults disk' (index + 1) rest).2 = none := by
            obtain ⟨hrestored, -⟩ := discard_eq_none hundo
            obtain ⟨hremoved, -⟩ := restore_eq_none hrestored
            exact (unpublish_eq_none hremoved).1
          exact (undoOne_of_published hone hbackup hpublished habsent hname hnameTemporary hpath
            hnamePaths (rollback_staged hrest.staged hfirst) hundo).2
      | none =>
          intro _ hundo
          have hfirst := (unpublish_eq_none (restore_eq_none (discard_eq_none hundo).1).1).1
          exact (undoOne_of_published hone hbackup hpublished habsent hname hnameTemporary hpath
            hnamePaths (ih hrest hfirst) hundo).2

/-- A rollback of which no step fails has no error. -/
theorem rollback_publishFrom_of_quiet (hquiet : ∀ index point, faults.undo index point = none)
    (hready : Ready backupName disk index outputs) :
    let out := publishFrom replace faults failAt backupName disk index outputs
    (rollback faults out.1 index out.2.1).2 = none := by
  induction outputs generalizing disk index with
  | nil => rfl
  | cons output rest ih =>
      obtain ⟨hbackup, hpublished⟩ := hready.staged output List.mem_cons_self
      obtain ⟨hname, hnameTemporary⟩ := (hready.backups index le_rfl).2 output List.mem_cons_self
      have hnamePaths : backupName index ∉ rest.map PendingOutput.temporary := by
        intro hmem
        obtain ⟨o, ho, heq⟩ := List.mem_map.mp hmem
        exact ((hready.backups index le_rfl).2 o (List.mem_cons_of_mem _ ho)).2 heq.symm
      have hone := published_publishOne replace faults failAt backupName disk index output
      rw [publishFrom]
      generalize publishOne replace faults failAt backupName disk index output = one at hone
      obtain ⟨disk', output', failure⟩ := one
      have hrest := hone.ready hready
      cases failure with
      | some message =>
          have hfirst := @rollback_staged_of_quiet _ disk' (index + 1) rest hquiet hrest.staged
          exact undoOne_of_quiet (hquiet index) hone hbackup hpublished hname hnameTemporary
            hnamePaths (rollback_staged hrest.staged hfirst) hfirst
      | none =>
          have hfirst := ih hrest
          exact undoOne_of_quiet (hquiet index) hone hbackup hpublished hname hnameTemporary
            hnamePaths (rollback_publishFrom hrest hfirst) hfirst

theorem Published.temporary_eq {name : String}
    (h : Published name disk output disk' output' failure) :
    output'.temporary = output.temporary ∧
      ∀ backup, output'.backup = some backup → output.backup = some backup ∨ backup = name := by
  cases h with
  | untouched => exact ⟨rfl, fun _ ↦ .inl⟩
  | moved => exact ⟨rfl, fun _ hbackup ↦ .inr (Option.some.inj hbackup).symm⟩
  | created => exact ⟨rfl, fun _ ↦ .inl⟩
  | replaced => exact ⟨rfl, fun _ hbackup ↦ .inr (Option.some.inj hbackup).symm⟩

/-- An installed output has the content that was staged for it. -/
theorem Published.installed {name : String}
    (h : Published name disk output disk' output' none) (haside : output.temporary ≠ output.path)
    (hname : name ≠ output.temporary) : disk' output.path = disk output.temporary := by
  cases h with
  | created _ hinstalled => exact Disk.rename_target hinstalled
  | replaced hmoved hinstalled =>
      rw [Disk.rename_target hinstalled, Disk.rename_of_ne hmoved haside hname.symm]

/-- What the loop leaves alone. -/
theorem publishFrom_of_ne {path : String}
    (hpath : ∀ o ∈ outputs, path ≠ o.path ∧ path ≠ o.temporary)
    (hbackup : ∀ n, index ≤ n → path ≠ backupName n) :
    (publishFrom replace faults failAt backupName disk index outputs).1 path = disk path := by
  induction outputs generalizing disk index with
  | nil => rfl
  | cons output rest ih =>
      have hone := published_publishOne replace faults failAt backupName disk index output
      obtain ⟨hne, htemporary⟩ := hpath output List.mem_cons_self
      rw [publishFrom]
      generalize publishOne replace faults failAt backupName disk index output = one at hone
      obtain ⟨disk', output', failure⟩ := one
      have hframe : disk' path = disk path := hone.of_ne hne htemporary (hbackup index le_rfl)
      cases failure with
      | some message => exact hframe
      | none =>
          refine Eq.trans (ih (fun o ho ↦ hpath o (List.mem_cons_of_mem _ ho)) fun n hn ↦ ?_) hframe
          exact hbackup n (Nat.le_of_succ_le hn)

/-- The names that are left to be swept are those of temporary files and
backups. -/
theorem leftovers_publishFrom (disk : Disk) (index : ℕ)
    (hstaged : ∀ o ∈ outputs, o.backup = none ∧ o.published = false) :
    let out := publishFrom replace faults failAt backupName disk index outputs
    out.2.1.map PendingOutput.temporary = outputs.map PendingOutput.temporary ∧
      ∀ o ∈ out.2.1, ∀ name, o.backup = some name → ∃ n, name = backupName n := by
  induction outputs generalizing disk index with
  | nil => exact ⟨rfl, nofun⟩
  | cons output rest ih =>
      have hone := published_publishOne replace faults failAt backupName disk index output
      have hrest : ∀ o ∈ rest, o.backup = none ∧ o.published = false := fun o ho ↦
        hstaged o (List.mem_cons_of_mem _ ho)
      rw [publishFrom]
      generalize publishOne replace faults failAt backupName disk index output = one at hone
      obtain ⟨disk', output', failure⟩ := one
      obtain ⟨htemporary, hbackup⟩ := hone.temporary_eq
      have hhead : ∀ name, output'.backup = some name → ∃ n, name = backupName n := by
        intro name hname
        rcases hbackup name hname with hold | hnew
        · rw [(hstaged output List.mem_cons_self).1] at hold
          cases hold
        · exact ⟨index, hnew⟩
      cases failure with
      | some message =>
          refine ⟨?_, fun o ho name hname ↦ ?_⟩
          · rw [List.map_cons, List.map_cons, htemporary]
          · rcases List.mem_cons.mp ho with rfl | ho
            · exact hhead name hname
            · rw [(hrest o ho).1] at hname
              cases hname
      | none =>
          obtain ⟨hmap, hnames⟩ := ih disk' (index + 1) hrest
          refine ⟨?_, fun o ho name hname ↦ ?_⟩
          · dsimp only
            rw [List.map_cons, List.map_cons, htemporary, hmap]
          · rcases List.mem_cons.mp ho with rfl | ho
            · exact hhead name hname
            · exact hnames o ho name hname

/-- When the loop gets to the end, every target has the last content that was
staged for it. -/
theorem publishFrom_installs (hready : Ready backupName disk index outputs)
    (hok : (publishFrom replace faults failAt backupName disk index outputs).2.2 = none)
    {before after : List PendingOutput} {last : PendingOutput}
    (hsplit : outputs = before ++ last :: after) (hlast : ∀ o ∈ after, last.path ≠ o.path) :
    (publishFrom replace faults failAt backupName disk index outputs).1 last.path =
      disk last.temporary := by
  induction outputs generalizing disk index before with
  | nil => simp at hsplit
  | cons output rest ih =>
      have hone := published_publishOne replace faults failAt backupName disk index output
      obtain ⟨-, hapart⟩ := hready.backups index le_rfl
      rw [publishFrom] at hok ⊢
      generalize publishOne replace faults failAt backupName disk index output = one at hone hok
      obtain ⟨disk', output', failure⟩ := one
      cases failure with
      | some message => cases hok
      | none =>
          dsimp only at hok ⊢
          cases before with
          | nil =>
              obtain ⟨rfl, rfl⟩ := List.cons.inj hsplit
              have hframe : ∀ o ∈ rest, output.path ≠ o.path ∧ output.path ≠ o.temporary :=
                fun o ho ↦ ⟨hlast o ho, (hready.aside o (List.mem_cons_of_mem _ ho) output
                  List.mem_cons_self).symm⟩
              have hnames : ∀ n, index + 1 ≤ n → output.path ≠ backupName n := fun n hn ↦
                ((hready.backups n (Nat.le_of_succ_le hn)).2 output List.mem_cons_self).1.symm
              rw [publishFrom_of_ne hframe hnames]
              exact hone.installed
                (hready.aside output List.mem_cons_self output List.mem_cons_self)
                (hapart output List.mem_cons_self).2
          | cons first before =>
              obtain ⟨rfl, hrest⟩ := List.cons.inj hsplit
              have hmem : last ∈ rest := by simp [hrest]
              rw [ih (hone.ready hready) hok hrest]
              refine hone.of_ne ?_ ?_ ?_
              · exact hready.aside last (List.mem_cons_of_mem _ hmem) output List.mem_cons_self
              · intro heq
                refine (List.nodup_cons.mp hready.temporaries).1 ?_
                rw [← heq]
                exact List.mem_map_of_mem hmem
              · exact ((hapart last (List.mem_cons_of_mem _ hmem)).2).symm

theorem sweep_of_notMem {paths : List String} {path : String} (h : path ∉ paths) :
    sweep faults disk index paths path = disk path := by
  induction paths generalizing disk index with
  | nil => rfl
  | cons first rest ih =>
      obtain ⟨hne, hrest⟩ := not_or.mp (fun hor ↦ h (List.mem_cons.mpr hor))
      rw [sweep, ih hrest]
      split
      · exact Disk.remove_of_ne hne
      · rfl

theorem sweep_of_none {paths : List String} (h : ∀ path ∈ paths, disk path = none) :
    sweep faults disk index paths = disk := by
  induction paths generalizing index with
  | nil => rfl
  | cons first rest ih =>
      have hremove : disk.remove first = disk := by
        rw [Disk.remove, ← h first List.mem_cons_self, Function.update_eq_self]
      rw [sweep, hremove, ite_self]
      exact ih fun path hpath ↦ h path (List.mem_cons_of_mem _ hpath)

/-- The disk is as it was before the publication, and no file of the run is
left. -/
structure RolledBack (backupName : ℕ → String) (disk : Disk) (outputs : List PendingOutput)
    (disk' : Disk) : Prop where
  targets : ∀ o ∈ outputs, disk' o.path = disk o.path
  temporaries : ∀ o ∈ outputs, disk' o.temporary = none
  backups : ∀ n, disk' (backupName n) = none
  others : ∀ path, (∀ o ∈ outputs, path ≠ o.temporary) → disk' path = disk path

theorem rolledBack_without (hready : Ready backupName disk 0 outputs) :
    RolledBack backupName disk outputs
      (without disk (outputs.map PendingOutput.temporary)) := by
  have hother : ∀ path, (∀ o ∈ outputs, path ≠ o.temporary) →
      without disk (outputs.map PendingOutput.temporary) path = disk path := by
    intro path hpath
    refine without_of_notMem fun hmem ↦ ?_
    obtain ⟨o, ho, heq⟩ := List.mem_map.mp hmem
    exact hpath o ho heq.symm
  refine ⟨fun o ho ↦ ?_, fun o ho ↦ ?_, fun n ↦ ?_, hother⟩
  · exact hother o.path fun p hp ↦ (hready.aside p hp o ho).symm
  · exact without_of_mem (List.mem_map_of_mem ho)
  · obtain ⟨habsent, hapart⟩ := hready.backups n (Nat.zero_le n)
    rw [hother _ fun o ho ↦ (hapart o ho).2, habsent]

/-- Staging keeps the outputs ready, and touches no target. -/
theorem ready_stage {path temporary : String} {content : List UInt8}
    {outputs' : List PendingOutput} (hready : Ready backupName disk 0 outputs)
    (hstage : stage replace disk outputs path temporary content = .ok (disk', outputs'))
    (hfresh : ∀ o ∈ outputs, temporary ≠ o.path ∧ temporary ≠ o.temporary ∧ o.temporary ≠ path)
    (haside : temporary ≠ path)
    (hnames : ∀ n, disk (backupName n) = none ∧ backupName n ≠ path ∧ backupName n ≠ temporary) :
    Ready backupName disk' 0 outputs' ∧ disk' temporary = some content ∧
      ∀ other, other ≠ temporary → disk' other = disk other := by
  rw [stage] at hstage
  split at hstage
  · cases hstage
  · split at hstage
    · cases hstage
    · obtain ⟨rfl, rfl⟩ := Prod.mk.inj (Except.ok.inj hstage)
      have hother : ∀ other, other ≠ temporary →
          Function.update disk temporary (some content) other = disk other := fun other hne ↦
        Function.update_of_ne hne _ _
      refine ⟨⟨fun o ho ↦ ?_, ?_, fun o ho p hp ↦ ?_, hready.drawn, fun n hn ↦ ?_⟩,
        Function.update_self _ _ _, hother⟩
      · rcases List.mem_append.mp ho with ho | ho
        · exact hready.staged o ho
        · rw [List.mem_singleton.mp ho]
          exact ⟨rfl, rfl⟩
      · rw [List.map_append, List.nodup_append]
        refine ⟨hready.temporaries, List.nodup_singleton _, fun t ht u hu ↦ ?_⟩
        obtain ⟨o, ho, rfl⟩ := List.mem_map.mp ht
        rw [List.map_cons, List.map_nil, List.mem_singleton] at hu
        rw [hu]
        exact (hfresh o ho).2.1.symm
      · rcases List.mem_append.mp ho with ho | ho <;> rcases List.mem_append.mp hp with hp | hp
        · exact hready.aside o ho p hp
        · rw [List.mem_singleton.mp hp]
          exact (hfresh o ho).2.2
        · rw [List.mem_singleton.mp ho]
          exact (hfresh p hp).1
        · rw [List.mem_singleton.mp ho, List.mem_singleton.mp hp]
          exact haside
      · obtain ⟨habsent, hpath, htemporary⟩ := hnames n
        refine ⟨by rw [hother _ htemporary, habsent], fun o ho ↦ ?_⟩
        rcases List.mem_append.mp ho with ho | ho
        · exact (hready.backups n hn).2 o ho
        · rw [List.mem_singleton.mp ho]
          exact ⟨hpath, htemporary⟩

/-- A publication whose rollback succeeds leaves the disk as it was, as it does
where no step of the rollback fails, and one that succeeds leaves in every target
the last content that was staged for it. -/
theorem publish_allOrNothing (replace : Bool) (faults : Faults) (failAt : Option ℕ)
    (hready : Ready backupName disk 0 outputs) :
    let out := publishWithFailure replace faults failAt backupName disk outputs
    (∀ message, out.2 = .error (.failed message) → RolledBack backupName disk outputs out.1) ∧
      ((∀ index point, faults.undo index point = none) →
        ∀ message incomplete, out.2 ≠ .error (.incomplete message incomplete)) ∧
      (out.2 = .ok () → ∀ before last after, outputs = before ++ last :: after →
        (∀ o ∈ after, last.path ≠ o.path) → out.1 last.path = disk last.temporary) := by
  have hquietly : (∀ index point, faults.undo index point = none) →
      (rollback faults (publishFrom replace faults failAt backupName disk 0 outputs).1 0
        (publishFrom replace faults failAt backupName disk 0 outputs).2.1).2 = none :=
    fun hquiet ↦ rollback_publishFrom_of_quiet hquiet hready
  have hback : (rollback faults (publishFrom replace faults failAt backupName disk 0 outputs).1 0
      (publishFrom replace faults failAt backupName disk 0 outputs).2.1).2 = none → _ :=
    rollback_publishFrom hready
  have hinstalls : (publishFrom replace faults failAt backupName disk 0 outputs).2.2 = none →
      ∀ before last after, outputs = before ++ last :: after →
        (∀ o ∈ after, last.path ≠ o.path) → _ = disk last.temporary :=
    fun hok _ _ _ hsplit hlast ↦ publishFrom_installs hready hok hsplit hlast
  obtain ⟨htemporaries, hnames⟩ : _ ∧ ∀ o ∈ (publishFrom replace faults failAt backupName disk 0
      outputs).2.1, ∀ name, o.backup = some name → ∃ n, name = backupName n :=
    leftovers_publishFrom disk 0 hready.staged
  rw [publishWithFailure]
  generalize publishFrom replace faults failAt backupName disk 0 outputs = run at *
  obtain ⟨disk', outputs', failure⟩ := run
  cases failure with
  | none =>
      refine ⟨nofun, fun _ _ _ ↦ nofun, fun _ before last after hsplit hlast ↦ ?_⟩
      have hmem : last ∈ outputs := by simp [hsplit]
      have hswept : last.path ∉ outputs'.filterMap PendingOutput.backup ++
          outputs'.flatMap leftovers := by
        have hbackup : ∀ o ∈ outputs', o.backup ≠ some last.path := by
          intro o ho hname
          obtain ⟨n, hn⟩ := hnames o ho last.path hname
          exact ((hready.backups n (Nat.zero_le n)).2 last hmem).1 hn.symm
        have htemporary : ∀ o ∈ outputs', o.temporary ≠ last.path := by
          intro o ho heq
          have hold : o.temporary ∈ outputs.map PendingOutput.temporary := by
            rw [← htemporaries]
            exact List.mem_map_of_mem ho
          obtain ⟨p, hp, hpo⟩ := List.mem_map.mp hold
          exact hready.aside p hp last hmem (hpo.trans heq)
        rw [List.mem_append, List.mem_filterMap, List.mem_flatMap]
        rintro (⟨o, ho, hname⟩ | ⟨o, ho, hname⟩)
        · exact hbackup o ho hname
        · rw [leftovers, List.mem_cons, Option.mem_toList] at hname
          rcases hname with heq | hname
          · exact htemporary o ho heq.symm
          · exact hbackup o ho hname
      dsimp only
      rw [sweep_of_notMem hswept]
      exact hinstalls rfl before last after hsplit hlast
  | some message =>
      refine ⟨fun _ herror ↦ ?_, fun hquiet _ _ herror ↦ ?_, fun hok ↦ ?_⟩
      · dsimp only at herror hback ⊢
        generalize rollback faults disk' 0 outputs' = undone at *
        obtain ⟨disk'', failure⟩ := undone
        cases failure with
        | some incomplete => simp at herror
        | none =>
            have hdisk : disk'' = without disk (outputs.map PendingOutput.temporary) := hback rfl
            have hgone : ∀ path ∈ outputs'.map PendingOutput.temporary, disk'' path = none := by
              intro path hpath
              rw [hdisk]
              exact without_of_mem (htemporaries ▸ hpath)
            dsimp only
            rw [sweep_of_none hgone, hdisk]
            exact rolledBack_without hready
      · have hnone := hquietly hquiet
        dsimp only at herror hnone
        generalize rollback faults disk' 0 outputs' = undone at *
        obtain ⟨disk'', failure⟩ := undone
        subst hnone
        simp at herror
      · dsimp only at hok
        split at hok <;> cases hok

/-- Two outputs, of which one replaces a file. -/
def sampleOutputs : List PendingOutput :=
  [⟨"a", "a.tmp", none, false⟩, ⟨"b", "b.tmp", none, false⟩]

def sampleDisk : Disk := fun path ↦
  if path = "a" then some [1]
  else if path = "a.tmp" then some [2]
  else if path = "b.tmp" then some [3]
  else none

def sampleBackup (n : ℕ) : String := String.ofList ('.' :: List.replicate n 'x')

theorem ready_sample : Ready sampleBackup sampleDisk 0 sampleOutputs where
  staged := by decide
  temporaries := by decide
  aside := by decide
  drawn m n h := by
    have hlength := congrArg (fun name ↦ name.toList.length) h
    simpa [sampleBackup] using hlength
  backups n _ := by
    have hne : ∀ path : String, path.toList.head? ≠ some '.' → sampleBackup n ≠ path := by
      rintro path hpath rfl
      simp [sampleBackup] at hpath
    have hnames : ∀ path ∈ ["a", "a.tmp", "b", "b.tmp"], sampleBackup n ≠ path := fun path hpath ↦
      hne path (by revert path; decide)
    simp only [List.forall_mem_cons] at hnames
    refine ⟨by simp [sampleDisk, hnames], ?_⟩
    simp [sampleOutputs, hnames]

/-- The publication fails at the second output. -/
theorem publish_allOrNothing_sample :
    let out := publishWithFailure true ⟨fun _ _ ↦ none, fun _ _ ↦ none, fun _ ↦ true⟩ (some 1)
      sampleBackup sampleDisk sampleOutputs
    (∀ message, out.2 = .error (.failed message) →
        RolledBack sampleBackup sampleDisk sampleOutputs out.1) ∧
      ((∀ index point, (⟨fun _ _ ↦ none, fun _ _ ↦ none, fun _ ↦ true⟩ : Faults).undo index point =
          none) → ∀ message incomplete, out.2 ≠ .error (.incomplete message incomplete)) ∧
      (out.2 = .ok () → ∀ before last after, sampleOutputs = before ++ last :: after →
        (∀ o ∈ after, last.path ≠ o.path) → out.1 last.path = sampleDisk last.temporary) :=
  publish_allOrNothing true _ (some 1) ready_sample

end Migration

end Cortana
