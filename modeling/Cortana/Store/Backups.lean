import Cortana.Core.Loops
import Cortana.Core.OrderedSet
import Cortana.Text.Decimal

/-!
# Backups of the index

`main.rs`: the snapshots in the directory of backups and how a new one prunes the
others.  Age is read off the order of the names, and there are three ways to name
a snapshot.
-/

namespace Cortana

/-! ## Names -/

/-- A time as `%Y%m%d-%H%M%S` writes it: the digits of the date and of the time. -/
structure Stamp where
  date : ℕ
  time : ℕ
  date_lt : date < 10 ^ 8
  time_lt : time < 10 ^ 6
deriving DecidableEq

namespace Stamp

def text (stamp : Stamp) : List Char :=
  Decimal.padded 8 stamp.date ++ '-' :: Decimal.padded 6 stamp.time

def Before (s t : Stamp) : Prop :=
  s.date < t.date ∨ s.date = t.date ∧ s.time < t.time

instance : DecidableRel Before := fun s t ↦
  inferInstanceAs (Decidable (s.date < t.date ∨ s.date = t.date ∧ s.time < t.time))

@[simp] theorem length_text (stamp : Stamp) : stamp.text.length = 15 := by
  simp [text]

theorem text_eq_of_padded {stamp : Stamp} {c : Char} {rest : List Char}
    (h : Decimal.padded 8 stamp.date = c :: rest) :
    stamp.text = c :: (rest ++ '-' :: Decimal.padded 6 stamp.time) := by
  rw [text, h, List.cons_append]

/-- Stamps are in the order of their texts. -/
theorem text_lt_text_iff {s t : Stamp} : s.text < t.text ↔ s.Before t := by
  rw [text, text, List.append_lt_append_iff_of_length_eq (by simp),
    Decimal.padded_lt_padded_iff s.date_lt t.date_lt, List.cons_lt_cons_iff,
    Decimal.padded_lt_padded_iff s.time_lt t.time_lt, Before]
  constructor
  · rintro (h | ⟨hdate, h | ⟨-, h⟩⟩)
    · exact .inl h
    · exact absurd h (lt_irrefl _)
    · exact .inr ⟨Decimal.padded_inj s.date_lt t.date_lt hdate, h⟩
  · rintro (h | ⟨hdate, h⟩)
    · exact .inl h
    · exact .inr ⟨by rw [hdate], .inr ⟨rfl, h⟩⟩

theorem text_injective {s t : Stamp} (h : s.text = t.text) : s = t := by
  obtain ⟨hdate, hrest⟩ := List.append_inj h (by simp)
  have htime := (List.cons.inj hrest).2
  obtain ⟨date, time, hd, ht⟩ := s
  obtain rfl := Decimal.padded_inj hd t.date_lt hdate
  obtain rfl := Decimal.padded_inj ht t.time_lt htime
  rfl

end Stamp

inductive BackupKind where
  | regular
  | migration
  | preRestore
deriving DecidableEq

/-- What the name of a snapshot begins with. -/
def BackupKind.title : BackupKind → List Char
  | .regular => "cortana-".toList
  | .migration => "cortana-embedding-migration-".toList
  | .preRestore => "pre-restore-".toList

/-- A snapshot by what its name says. -/
inductive Backup where
  /-- Of `backup_database`. -/
  | regular (stamp : Stamp)
  /-- Of `migrate_embedding_generation`. -/
  | migration (stamp : Stamp) (uuid : List Char)
  /-- Of `restore_database`. -/
  | preRestore (stamp : Stamp)

namespace Backup

def kind : Backup → BackupKind
  | .regular _ => .regular
  | .migration _ _ => .migration
  | .preRestore _ => .preRestore

def stamp : Backup → Stamp
  | .regular stamp => stamp
  | .migration stamp _ => stamp
  | .preRestore stamp => stamp

/-- What follows the stamp. -/
def ending : Backup → List Char
  | .migration _ uuid => '-' :: uuid ++ ".sqlite3".toList
  | .regular _ | .preRestore _ => ".sqlite3".toList

/-- The name of the file. -/
def name (backup : Backup) : List Char :=
  backup.kind.title ++ (backup.stamp.text ++ backup.ending)

end Backup

/-! ## Pruning -/

/-- The files in the directory of backups. -/
structure Directory where
  path : String
  names : List (List Char)
  nodup : names.Nodup

/-- The extension is `sqlite3`; a name that begins with its only dot has none. -/
def isDatabase (name : List Char) : Bool :=
  ".sqlite3".toList.isSuffixOf name && name ≠ ".sqlite3".toList

/-- Names are compared as they are. -/
local instance lawfulBEqName : LawfulBEq (List Char) := inferInstance

namespace Directory

/-- The database files. -/
def databases (directory : Directory) : List (List Char) :=
  directory.names.filter isDatabase

/-- A file is written under a name that is not taken. -/
def write (directory : Directory) (name : List Char) (h : name ∉ directory.names) : Directory where
  path := directory.path
  names := directory.names ++ [name]
  nodup := List.nodup_append.mpr ⟨directory.nodup, List.nodup_singleton name, by
    rintro a ha b hb rfl
    exact h (List.mem_singleton.mp hb ▸ ha)⟩

def removeFiles (directory : Directory) (removed : List (List Char)) : Directory where
  path := directory.path
  names := directory.names.filter (· ∉ removed)
  nodup := directory.nodup.filter _

/-- `prune_backups`. -/
def pruneBackups (directory : Directory) (keep : ℕ) (shielded : Option (List Char)) : Directory :=
  if keep = 0 then directory
  else
    let backups := (directory.names.filter fun name ↦
      isDatabase name && decide (some name ≠ shielded)).insertionSort (· ≤ ·)
    let remove := backups.length - (keep - 1)
    directory.removeFiles (backups.take remove)

end Directory

/-- Where a snapshot is written to: under a name in the directory of backups, or to
a path elsewhere, where a file may be. -/
inductive Destination where
  | inside (name : List Char)
  | outside (path : String) (taken : Bool)

/-- `backup_database`, after its lock and the integrity check. -/
def backupDatabase (checked : Except String Unit) (output : Option Destination) (keep : ℕ)
    (now : Stamp) (directory : Directory) : Except String Directory := do
  checked
  match output.getD (.inside (Backup.regular now).name) with
  | .inside name =>
      if h : name ∈ directory.names then
        .error ("backup already exists: " ++ directory.path ++ "/" ++ String.ofList name)
      else return (directory.write name h).pruneBackups keep (some name)
  | .outside path taken =>
      Except.require (!taken) ("backup already exists: " ++ path)
      return directory

/-! ## What the names tell -/

theorem isDatabase_of_append {front : List Char} (h : front ≠ []) :
    isDatabase (front ++ ".sqlite3".toList) = true := by
  rw [isDatabase, Bool.and_eq_true, List.isSuffixOf_iff_suffix, decide_eq_true_eq]
  refine ⟨List.suffix_append _ _, fun heq ↦ h ?_⟩
  exact List.append_left_eq_self.mp heq

theorem Backup.isDatabase_name (backup : Backup) : isDatabase backup.name = true := by
  have htext : backup.stamp.text ≠ [] := List.ne_nil_of_length_pos (by simp)
  have hending : ∃ front, backup.ending = front ++ ".sqlite3".toList := by
    cases backup with
    | migration stamp uuid => exact ⟨'-' :: uuid, rfl⟩
    | regular | preRestore => exact ⟨[], rfl⟩
  obtain ⟨front, hfront⟩ := hending
  rw [name, hfront, ← List.append_assoc, ← List.append_assoc]
  exact isDatabase_of_append fun hnil ↦ htext (List.append_eq_nil_iff.mp
    (List.append_eq_nil_iff.mp hnil).1).2

/-- Among snapshots of a kind the order of the names is that of the stamps. -/
theorem Backup.not_before_of_name_lt {r s : Backup} (hkind : s.kind = r.kind)
    (h : r.name < s.name) : ¬ s.stamp.Before r.stamp := by
  rw [name, name, hkind, List.append_lt_append_left_iff,
    List.append_lt_append_iff_of_length_eq (by simp)] at h
  rw [← Stamp.text_lt_text_iff]
  rcases h with h | ⟨h, -⟩
  · exact h.asymm
  · rw [h]
    exact lt_irrefl _

/-- The name of a regular backup tells that it is one, and of when. -/
theorem Backup.stamp_of_name_eq_regular {backup : Backup} {stamp : Stamp}
    (h : backup.name = (Backup.regular stamp).name) : backup.stamp = stamp := by
  rw [name, name] at h
  cases backup with
  | regular other =>
      obtain ⟨htext, -⟩ := List.append_inj (List.append_cancel_left h) (by simp)
      exact Stamp.text_injective htext
  | migration other uuid =>
      -- a letter stands where the stamp begins
      have htitle : BackupKind.migration.title =
          BackupKind.regular.title ++ 'e' :: "mbedding-migration-".toList := by decide
      change BackupKind.migration.title ++ _ = BackupKind.regular.title ++ (stamp.text ++ _) at h
      rw [htitle, List.append_assoc] at h
      obtain ⟨c, rest, hdate⟩ := List.exists_cons_of_length_eq_add_one
        (Decimal.length_padded 8 stamp.date)
      have hc : c ∈ Decimal.padded 8 stamp.date := hdate ▸ List.mem_cons_self
      have hcons := List.append_cancel_left h
      rw [Stamp.text_eq_of_padded hdate] at hcons
      obtain rfl := (List.cons.inj hcons).1
      exact absurd (Decimal.isDigit_of_mem_padded hc) (by decide)
  | preRestore other =>
      have hfirst := congrArg List.head? h
      exact absurd (Option.some.inj hfirst) (by decide)

/-! ## What is kept -/

namespace Directory

/-- How many database files are named after a name. -/
def namedAfter (directory : Directory) (name : List Char) : ℕ :=
  (directory.databases.filter (name < ·)).length

/-- The age of the snapshots is in the order of their names as far as it matters:
none that at least `keep - 1` files are named after is newer than the new backup, or
than one of another kind that fewer are named after. -/
def AgesInNameOrder (directory : Directory) (keep : ℕ) (now : Stamp) : Prop :=
  ∀ r : Backup, r.name ∈ directory.names → keep ≤ directory.namedAfter r.name + 1 →
    ¬ now.Before r.stamp ∧ ∀ s : Backup, s.name ∈ directory.names → s.kind ≠ r.kind →
      directory.namedAfter s.name + 1 < keep → ¬ s.stamp.Before r.stamp

/-- The files that pruning removes, from the others than the new one. -/
def pruned (directory : Directory) (keep : ℕ) : List (List Char) :=
  (directory.databases.insertionSort (· ≤ ·)).take (directory.databases.length - (keep - 1))

theorem mem_pruned {directory : Directory} {keep : ℕ} (hkeep : 1 ≤ keep) {name : List Char} :
    name ∈ directory.pruned keep ↔
      name ∈ directory.databases ∧ keep ≤ directory.namedAfter name + 1 := by
  have hnodup : directory.databases.Nodup := directory.nodup.filter _
  have hperm := List.perm_insertionSort (· ≤ ·) directory.databases
  have hsorted : (directory.databases.insertionSort (· ≤ ·)).Pairwise (· < ·) :=
    ((List.pairwise_insertionSort _ _).and (hperm.nodup_iff.mpr hnodup)).imp
      fun h ↦ lt_of_le_of_ne h.1 h.2
  rw [pruned, List.mem_take_iff_of_pairwise hsorted, hperm.mem_iff]
  refine and_congr_right fun hmem ↦ ?_
  rw [(hperm.filter _).length_eq]
  have hcount := List.length_filter_lt_add_of_mem hnodup hmem
  rw [namedAfter]
  omega

theorem length_filter_notMem_pruned (directory : Directory) {keep : ℕ} (hkeep : 1 ≤ keep) :
    (directory.databases.filter (· ∉ directory.pruned keep)).length + 1 =
      min keep (directory.databases.length + 1) := by
  have hperm := List.perm_insertionSort (· ≤ ·) directory.databases
  have hnodup : (directory.databases.insertionSort (· ≤ ·)).Nodup :=
    hperm.nodup_iff.mpr (directory.nodup.filter _)
  rw [← (hperm.filter _).length_eq, pruned, List.filter_notMem_take hnodup, List.length_drop,
    List.length_insertionSort]
  omega

/-- After a backup the directory has what it had, less what is pruned, and the new file. -/
theorem names_of_backupDatabase {checked : Except String Unit} {keep : ℕ} {now : Stamp}
    {directory directory' : Directory} (hkeep : 1 ≤ keep)
    (h : backupDatabase checked none keep now directory = .ok directory') :
    (Backup.regular now).name ∉ directory.names ∧ directory'.names =
      directory.names.filter (· ∉ directory.pruned keep) ++ [(Backup.regular now).name] := by
  obtain ⟨-, -, h⟩ := Iff.mp Except.bind_ok_iff h
  change (if hmem : (Backup.regular now).name ∈ directory.names then _ else _) = _ at h
  split_ifs at h with hmem
  refine ⟨hmem, ?_⟩
  obtain rfl := Except.ok.inj h
  have hothers : (directory.write (Backup.regular now).name hmem).names.filter
      (fun name ↦ isDatabase name && decide (some name ≠ some (Backup.regular now).name)) =
        directory.databases := by
    rw [write, List.filter_append, databases]
    have hnew : [(Backup.regular now).name].filter (fun name ↦
        isDatabase name && decide (some name ≠ some (Backup.regular now).name)) = [] := by
      simp
    rw [hnew, List.append_nil]
    refine List.filter_congr fun name hname ↦ ?_
    have hne : name ≠ (Backup.regular now).name := fun heq ↦ hmem (heq ▸ hname)
    simp [hne]
  rw [pruneBackups, if_neg (by omega), hothers]
  change ((directory.names ++ [(Backup.regular now).name]).filter
    (· ∉ (directory.databases.insertionSort (· ≤ ·)).take
      ((directory.databases.insertionSort (· ≤ ·)).length - (keep - 1)))) = _
  rw [List.length_insertionSort]
  change (directory.names ++ [(Backup.regular now).name]).filter (· ∉ directory.pruned keep) = _
  have hkept : (Backup.regular now).name ∉ directory.pruned keep := fun hpruned ↦
    hmem (List.mem_of_mem_filter (Iff.mp (mem_pruned hkeep) hpruned).1)
  rw [List.filter_append, List.filter_cons_of_pos (by simpa using hkept), List.filter_nil]

end Directory

/-- After a backup it is there with as many others as are to be kept, and no file
that was removed is newer than one that is there exactly when the names of the
snapshots are in the order of their ages. -/
theorem backupDatabase_keeps_newest_iff {checked : Except String Unit} {keep : ℕ} {now : Stamp}
    {directory directory' : Directory} (hkeep : 1 ≤ keep)
    (h : backupDatabase checked none keep now directory = .ok directory') :
    (Backup.regular now).name ∈ directory'.names ∧
      directory'.databases.length = min keep (directory.databases.length + 1) ∧
      ((∀ r s : Backup, r.name ∈ directory.names → r.name ∉ directory'.names →
          s.name ∈ directory'.names → ¬ s.stamp.Before r.stamp) ↔
        directory.AgesInNameOrder keep now) := by
  obtain ⟨hfresh, hnames⟩ := Directory.names_of_backupDatabase hkeep h
  have hmem : ∀ name, name ∈ directory'.names ↔
      name ∈ directory.names ∧ name ∉ directory.pruned keep ∨ name = (Backup.regular now).name := by
    intro name
    rw [hnames]
    simp
  have hgoes : ∀ backup : Backup, backup.name ∈ directory.names →
      (backup.name ∈ directory.pruned keep ↔ keep ≤ directory.namedAfter backup.name + 1) := by
    intro backup hbackup
    rw [Directory.mem_pruned hkeep]
    exact and_iff_right (List.mem_filter.mpr ⟨hbackup, backup.isDatabase_name⟩)
  refine ⟨Iff.mpr (hmem _) (.inr rfl), ?_, ?_, ?_⟩
  · rw [Directory.databases, hnames, List.filter_append,
      List.filter_cons_of_pos (Backup.regular now).isDatabase_name, List.filter_nil,
      List.length_append, List.length_singleton, List.filter_comm]
    exact directory.length_filter_notMem_pruned hkeep
  · intro hages r hr hafter
    have hremoved : r.name ∉ directory'.names := by
      rw [hmem]
      rintro (⟨-, hkept⟩ | heq)
      · exact hkept (Iff.mpr (hgoes r hr) hafter)
      · exact hfresh (heq ▸ hr)
    refine ⟨hages r (.regular now) hr hremoved (Iff.mpr (hmem _) (.inr rfl)), ?_⟩
    intro s hs _ hfew
    refine hages r s hr hremoved (Iff.mpr (hmem _) (.inl ⟨hs, fun hpruned ↦ ?_⟩))
    exact absurd (Iff.mp (hgoes s hs) hpruned) (Nat.not_le.mpr hfew)
  · intro hcondition r s hr hremoved hs
    have hpruned : r.name ∈ directory.pruned keep := by
      by_contra hkept
      exact hremoved (Iff.mpr (hmem _) (.inl ⟨hr, hkept⟩))
    have hafter := Iff.mp (hgoes r hr) hpruned
    obtain ⟨hnow, hothers⟩ := hcondition r hr hafter
    rcases Iff.mp (hmem _) hs with ⟨hs, hkept⟩ | heq
    · have hfew : directory.namedAfter s.name + 1 < keep := by
        rw [hgoes s hs] at hkept
        exact Nat.lt_of_not_le hkept
      by_cases hkind : s.kind = r.kind
      · -- what goes of a kind is named before what stays of it
        refine Backup.not_before_of_name_lt hkind ?_
        by_contra hle
        have hcount : directory.namedAfter r.name ≤ directory.namedAfter s.name := by
          refine (List.monotone_filter_right _ fun name hname ↦ ?_).length_le
          rw [decide_eq_true_eq] at hname ⊢
          exact lt_of_le_of_lt (not_lt.mp hle) hname
        omega
      · exact hothers s hs hkind hfew
    · rwa [Backup.stamp_of_name_eq_regular heq]

/-- A regular backup of the third of January and a recovery copy of the first, of
which one is to stay beside a backup of the fourth. -/
def mixedBackups : Directory :=
  ⟨"/data/backups", [(Backup.regular ⟨20260103, 0, by decide, by decide⟩).name,
    (Backup.preRestore ⟨20260101, 0, by decide, by decide⟩).name], by decide +kernel⟩

def fourthOfJanuary : Stamp := ⟨20260104, 0, by decide, by decide⟩

/-- The older one stays. -/
theorem backupDatabase_keeps_older :
    ∃ directory', backupDatabase (.ok ()) none 2 fourthOfJanuary mixedBackups = .ok directory' ∧
      ∃ r s : Backup, r.name ∈ mixedBackups.names ∧ r.name ∉ directory'.names ∧
        s.name ∈ directory'.names ∧ s.stamp.Before r.stamp := by
  refine ⟨_, rfl, .regular ⟨20260103, 0, by decide, by decide⟩,
    .preRestore ⟨20260101, 0, by decide, by decide⟩, ?_⟩
  decide +kernel

/-- The first three days of January. -/
def januaryDays : List Stamp :=
  [⟨20260101, 0, by decide, by decide⟩, ⟨20260102, 0, by decide, by decide⟩,
    ⟨20260103, 0, by decide, by decide⟩]

/-- A regular backup of each of these days. -/
def januaryBackups : Directory :=
  ⟨"/data/backups", januaryDays.map fun day ↦ (Backup.regular day).name, by decide +kernel⟩

/-- Of three regular backups the two older ones make room for the new one. -/
theorem backupDatabase_keeps_newest_iff_january : ∃ directory',
    backupDatabase (.ok ()) none 2 fourthOfJanuary januaryBackups = .ok directory' ∧
      (Backup.regular fourthOfJanuary).name ∈ directory'.names ∧
      directory'.databases.length = 2 ∧
      (Backup.regular ⟨20260101, 0, by decide, by decide⟩).name ∉ directory'.names ∧
      ∀ r s : Backup, r.name ∈ januaryBackups.names → r.name ∉ directory'.names →
        s.name ∈ directory'.names → ¬ s.stamp.Before r.stamp := by
  obtain ⟨directory', h, hremoved⟩ : ∃ directory',
      backupDatabase (.ok ()) none 2 fourthOfJanuary januaryBackups = .ok directory' ∧
        (Backup.regular ⟨20260101, 0, by decide, by decide⟩).name ∉ directory'.names :=
    ⟨_, rfl, by decide +kernel⟩
  obtain ⟨hfresh, hlength, hnewest⟩ := backupDatabase_keeps_newest_iff (by decide) h
  refine ⟨directory', h, hfresh, hlength.trans (by decide +kernel), hremoved, hnewest.mpr ?_⟩
  have hdated : ∀ backup : Backup, backup.name ∈ januaryBackups.names →
      ∃ day ∈ januaryDays, (Backup.regular day).name = backup.name ∧ backup.stamp = day := by
    intro backup hbackup
    obtain ⟨day, hday, hname⟩ := List.mem_map.mp hbackup
    exact ⟨day, hday, hname, Backup.stamp_of_name_eq_regular hname.symm⟩
  have hdays : ∀ day ∈ januaryDays,
      2 ≤ januaryBackups.namedAfter (Backup.regular day).name + 1 →
        ¬ fourthOfJanuary.Before day ∧ ∀ other ∈ januaryDays,
          januaryBackups.namedAfter (Backup.regular other).name + 1 < 2 → ¬ other.Before day := by
    decide +kernel
  intro r hr hafter
  obtain ⟨day, hday, hname, hstamp⟩ := hdated r hr
  obtain ⟨hnow, hothers⟩ := hdays day hday (hname ▸ hafter)
  rw [hstamp]
  refine ⟨hnow, fun s hs _ hfew ↦ ?_⟩
  obtain ⟨other, hother, hname', hstamp'⟩ := hdated s hs
  rw [hstamp']
  exact hothers other hother (hname' ▸ hfew)

end Cortana
