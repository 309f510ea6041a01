import Cortana.Vault.Export

/-!
# The layout of a vault

Which documents an export gives a file of their own.  The escaped name of a
text is compared with the texts themselves: two texts share a name when one
respells the other, or when one is the shortened name of the other written out.
-/

namespace Cortana

namespace Vault

open Pathname

variable {sha : Sha256} {v w : String}

/-! ## Escaped names -/

/-- The number of bytes a text takes in a file name before it is shortened. -/
def writtenLength (value : List UInt8) : ℕ :=
  (value.map fun b ↦ if fileNames.plain b then 1 else 3).sum

theorem length_escape (value : List UInt8) :
    (fileNames.escape value).length = writtenLength value := by
  induction value with
  | nil => rfl
  | cons b value ih =>
      rw [Escaping.escape_cons, List.length_append, ih, writtenLength, writtenLength,
        List.map_cons, List.sum_cons]
      cases hb : fileNames.plain b with
      | true => simp [Escaping.letter_plain hb]
      | false => simp [Escaping.letter_coded hb]

/-- The name is not shortened. -/
def Short (value : String) : Prop := writtenLength (bytes value) ≤ maxComponentBytes

instance (value : String) : Decidable (Short value) :=
  inferInstanceAs (Decidable (_ ≤ maxComponentBytes))

theorem bytes_ne_nil (hv : v ≠ "") : bytes v ≠ [] := by
  intro h
  exact hv (Iff.mp bytes_inj (h.trans (by decide : ([] : List UInt8) = bytes "")))

theorem pathComponent_short (hv : v ≠ "") (h : Short v) :
    pathComponent sha v = fileNames.escape (bytes v) := by
  have hne : fileNames.escape (bytes v) ≠ [] := fun hnil ↦
    bytes_ne_nil hv (Iff.mp Escaping.escape_eq_nil hnil)
  have hlen : ¬maxComponentBytes < (fileNames.escape (bytes v)).length := by
    rw [length_escape]
    exact not_lt.mpr h
  simp only [pathComponent, if_neg hne, if_neg hlen]

theorem pathComponent_long (h : ¬Short v) :
    pathComponent sha v =
      (fileNames.escape (bytes v)).take 80 ++ 45 :: (hexDigest sha (bytes v)).take 15 := by
  have hlen : maxComponentBytes < (fileNames.escape (bytes v)).length := by
    rw [length_escape]
    exact not_le.mp h
  have hne : fileNames.escape (bytes v) ≠ [] := by
    intro hnil
    simp [hnil] at hlen
  simp only [pathComponent, if_neg hne, if_pos hlen]

theorem lowerHex_plain (n : UInt8) (h : n < 16) :
    fileNames.plain (lowerHex n) = true ∧ lowerHex n ≠ 95 ∧ lowerHex n ≠ 109 := by
  have hall : ∀ n : UInt8, n < 16 →
      fileNames.plain (lowerHex n) = true ∧ lowerHex n ≠ 95 ∧ lowerHex n ≠ 109 :=
    forall_byte (by decide +kernel)
  exact hall n h

/-- A digest is written with lower-case digits only. -/
theorem hexDigest_plain {value : List UInt8} {b : UInt8} (h : b ∈ hexDigest sha value) :
    fileNames.plain b = true ∧ b ≠ 95 ∧ b ≠ 109 := by
  obtain ⟨d, -, hb⟩ := List.mem_flatMap.mp h
  have hnibbles : ∀ d : UInt8, d / 16 < 16 ∧ d % 16 < 16 := forall_byte (by decide +kernel)
  simp only [List.mem_cons, List.not_mem_nil, or_false] at hb
  rcases hb with rfl | rfl
  · exact lowerHex_plain _ (hnibbles d).1
  · exact lowerHex_plain _ (hnibbles d).2

theorem length_hexDigest (value : List UInt8) :
    ((hexDigest sha value).take 15).length = 15 := by
  have hlen : ∀ l : List UInt8, (l.flatMap fun b ↦ [lowerHex (b / 16), lowerHex (b % 16)]).length =
      2 * l.length := by
    intro l
    induction l with
    | nil => rfl
    | cons b l ih =>
        rw [List.flatMap_cons, List.length_append, ih, List.length_cons]
        simp only [List.length_cons, List.length_nil]
        omega
  rw [List.length_take, hexDigest, hlen, sha.length_digest]
  rfl

theorem length_head_of_long (h : ¬Short v) :
    ((fileNames.escape (bytes v)).take 80).length = 80 := by
  have hlen : maxComponentBytes < (fileNames.escape (bytes v)).length := by
    rw [length_escape]
    exact not_le.mp h
  rw [List.length_take]
  simp only [maxComponentBytes] at hlen
  omega

theorem length_pathComponent_long (sha : Sha256) (h : ¬Short v) : (pathComponent sha v).length = 96 := by
  rw [pathComponent_long h, List.length_append, length_head_of_long h, List.length_cons,
    length_hexDigest]

theorem pathComponent_plain (hv : v ≠ "") {b : UInt8} (h : b ∈ pathComponent sha v) :
    fileNames.plain b = true := by
  by_cases hs : Short v
  · rw [pathComponent_short hv hs] at h
    exact Escaping.plain_of_mem_escape h
  · rw [pathComponent_long hs] at h
    rcases List.mem_append.mp h with h | h
    · exact Escaping.plain_of_mem_escape (List.mem_of_mem_take h)
    · rcases List.mem_cons.mp h with rfl | h
      · decide
      · exact (hexDigest_plain (List.mem_of_mem_take h)).1

theorem pathComponent_noSep (hv : v ≠ "") : (Letters.sep : UInt8) ∉ pathComponent sha v := by
  intro h
  have hplain : fileNames.plain 47 = true := pathComponent_plain hv h
  exact absurd hplain (by decide)

theorem pathComponent_ne_nil (hv : v ≠ "") : pathComponent sha v ≠ [] := by
  by_cases hs : Short v
  · rw [pathComponent_short hv hs]
    exact fun hnil ↦ bytes_ne_nil hv (Iff.mp Escaping.escape_eq_nil hnil)
  · rw [pathComponent_long hs]
    simp

/-- A name of dots comes from the text of the same dots only. -/
theorem pathComponent_eq_dots (hv : v ≠ "") {dots : String}
    (hdots : dots = "." ∨ dots = "..") :
    pathComponent sha v = bytes dots ↔ v = dots := by
  have hplain : ∀ b ∈ bytes dots, fileNames.plain b = true ∧ b ≠ 95 := by
    rcases hdots with rfl | rfl <;> decide +kernel
  have hlen : (bytes dots).length ≤ 2 := by
    rcases hdots with rfl | rfl <;> decide +kernel
  have hself : fileNames.escape (bytes dots) = bytes dots :=
    Escaping.escape_of_plain fun b hb ↦ (hplain b hb).1
  constructor
  · intro h
    by_cases hs : Short v
    · rw [pathComponent_short hv hs] at h
      obtain ⟨rest, hrest, hnil⟩ := Escaping.escape_eq_append (t := [])
        (fun b hb ↦ (hplain b hb).2) (by rw [h, List.append_nil])
      rw [Iff.mp Escaping.escape_eq_nil hnil, List.append_nil] at hrest
      exact Iff.mp bytes_inj hrest
    · have hlong := length_pathComponent_long sha hs
      rw [h] at hlong
      omega
  · rintro rfl
    have hs : Short v := by
      rw [Short, ← length_escape, hself]
      exact hlen.trans (by decide)
    rw [pathComponent_short hv hs, hself]

theorem isName_pathComponent (sha : Sha256) (hv : v ≠ "") :
    IsName (pathComponent sha v) ↔ v ≠ "." ∧ v ≠ ".." := by
  have hdot : pathComponent sha v = [46] ↔ v = "." := pathComponent_eq_dots hv (.inl rfl)
  have hdots : pathComponent sha v = [46, 46] ↔ v = ".." := pathComponent_eq_dots hv (.inr rfl)
  constructor
  · intro h
    exact ⟨fun heq ↦ h.notCurrent (hdot.mpr heq), fun heq ↦ h.notParent (hdots.mpr heq)⟩
  · intro h
    exact ⟨pathComponent_ne_nil hv, pathComponent_noSep hv, fun heq ↦ h.1 (hdot.mp heq),
      fun heq ↦ h.2 (hdots.mp heq)⟩

/-! ## Texts that share a name -/

/-- The first text is the shortened name of the second one, which is too long
for a name of its own: some part that begins a respelling of the second one and
fills eighty bytes, a dash, and fifteen digits of its digest. -/
def Abbreviates (sha : Sha256) (v w : String) : Prop :=
  Short v ∧ ¬Short w ∧ ∃ head, bytes v = head ++ 45 :: (hexDigest sha (bytes w)).take 15 ∧
    writtenLength head = 80 ∧ ∃ rest, fileNames.Respells (head ++ rest) (bytes w)

/-- The texts share a file name. -/
def SameName (sha : Sha256) (v w : String) : Prop :=
  v = w ∨ (Short v ∧ Short w ∧ fileNames.Respells (bytes v) (bytes w)) ∨
    Abbreviates sha v w ∨ Abbreviates sha w v

theorem SameName.symm (h : SameName sha v w) : SameName sha w v := by
  rcases h with rfl | ⟨hv, hw, h⟩ | h | h
  · exact .inl rfl
  · exact .inr (.inl ⟨hw, hv, h.symm⟩)
  · exact .inr (.inr (.inr h))
  · exact .inr (.inr (.inl h))

theorem dash_no_digit (b : UInt8) (h : fileNames.plain b = false) :
    (45 : UInt8) ≠ (fileNames.code b).1 ∧ (45 : UInt8) ≠ (fileNames.code b).2 := by
  have hall : ∀ b : UInt8, fileNames.plain b = false →
      (45 : UInt8) ≠ (fileNames.code b).1 ∧ (45 : UInt8) ≠ (fileNames.code b).2 :=
    forall_byte (by decide +kernel)
  exact hall b h

/-- A text that fits is named as a longer one exactly when it abbreviates it. -/
theorem pathComponent_eq_long_iff (hv : v ≠ "") (hs : Short v) (hw : ¬Short w) :
    pathComponent sha v = pathComponent sha w ↔ Abbreviates sha v w := by
  have hfull : 80 ≤ (fileNames.escape (bytes w)).length := by
    have hlen := length_head_of_long hw
    rw [List.length_take] at hlen
    omega
  rw [pathComponent_short hv hs, pathComponent_long hw]
  constructor
  · intro h
    obtain ⟨head, rest, hbytes, hhead, hrest⟩ :=
      Escaping.escape_eq_append_cons (by decide) dash_no_digit h
    obtain ⟨tail, hdigest, htail⟩ := Escaping.escape_eq_append (t := [])
      (fun b hb ↦ (hexDigest_plain (List.mem_of_mem_take hb)).2.1) (by rw [hrest, List.append_nil])
    rw [Iff.mp Escaping.escape_eq_nil htail, List.append_nil] at hdigest
    obtain ⟨hlen, hbegins⟩ := (Escaping.escape_eq_take_iff hfull).mp hhead
    rw [length_escape] at hlen
    exact ⟨hs, hw, head, by rw [hbytes, hdigest], hlen, hbegins⟩
  · rintro ⟨-, -, head, hbytes, hlen, hbegins⟩
    have hhead := (Escaping.escape_eq_take_iff hfull).mpr ⟨by rw [length_escape, hlen], hbegins⟩
    have hplain : ∀ b ∈ 45 :: (hexDigest sha (bytes w)).take 15, fileNames.plain b = true := by
      intro b hb
      rcases List.mem_cons.mp hb with rfl | hb
      · decide
      · exact (hexDigest_plain (List.mem_of_mem_take hb)).1
    rw [hbytes, Escaping.escape_append, hhead, Escaping.escape_of_plain hplain]

theorem pathComponent_eq_iff (hv : v ≠ "") (hw : w ≠ "")
    (hfree : (hexDigest sha (bytes v)).take 15 = (hexDigest sha (bytes w)).take 15 → v = w) :
    pathComponent sha v = pathComponent sha w ↔ SameName sha v w := by
  constructor
  · intro h
    by_cases hsv : Short v
    · by_cases hsw : Short w
      · rw [pathComponent_short hv hsv, pathComponent_short hw hsw] at h
        exact .inr (.inl ⟨hsv, hsw, Iff.mp Escaping.escape_eq_iff h⟩)
      · exact .inr (.inr (.inl ((pathComponent_eq_long_iff hv hsv hsw).mp h)))
    · by_cases hsw : Short w
      · exact .inr (.inr (.inr ((pathComponent_eq_long_iff hw hsw hsv).mp h.symm)))
      · rw [pathComponent_long hsv, pathComponent_long hsw] at h
        have hparts := List.append_inj h
          ((length_head_of_long hsv).trans (length_head_of_long hsw).symm)
        exact .inl (hfree (List.cons.inj hparts.2).2)
  · rintro (rfl | ⟨hsv, hsw, h⟩ | h | h)
    · rfl
    · rw [pathComponent_short hv hsv, pathComponent_short hw hsw, h.escape_eq]
    · exact (pathComponent_eq_long_iff hv h.1 h.2.1).mpr h
    · exact ((pathComponent_eq_long_iff hw h.1 h.2.1).mpr h).symm

/-- A folder is named as the file of a source id exactly when it fits and
respells the id with its suffix: a shortened name ends in a digest. -/
theorem pathComponent_eq_file_iff (sha : Sha256) (hv : v ≠ "") (hw : w ≠ "") :
    pathComponent sha v = pathComponent sha w ++ bytes ".md" ↔
      Short v ∧ fileNames.Respells (bytes v) (bytes w ++ bytes ".md") := by
  have hsuffix : fileNames.escape (bytes ".md") = bytes ".md" :=
    Escaping.escape_of_plain (by decide +kernel)
  constructor
  · intro h
    have hs : Short v := by
      by_contra hs
      have hlen := length_pathComponent_long sha hs
      rw [h, List.length_append, show (bytes ".md").length = 3 from by decide] at hlen
      have hdrop := congrArg (List.drop 81) h
      rw [List.drop_append_of_le_length (by omega), pathComponent_long hs,
        List.drop_append, length_head_of_long hs,
        List.drop_eq_nil_of_le (by rw [length_head_of_long hs]; omega)] at hdrop
      have hmem : (109 : UInt8) ∈ (hexDigest sha (bytes v)).take 15 := by
        have hright : (109 : UInt8) ∈ (pathComponent sha w).drop 81 ++ bytes ".md" :=
          List.mem_append_right _ (by decide)
        rw [← hdrop] at hright
        simpa using hright
      exact (hexDigest_plain (List.mem_of_mem_take hmem)).2.2 rfl
    have hsw : Short w := by
      by_contra hsw
      have hlen := congrArg List.length h
      rw [pathComponent_short hv hs, length_escape, List.length_append,
        length_pathComponent_long sha hsw, show (bytes ".md").length = 3 from by decide] at hlen
      have hmax : writtenLength (bytes v) ≤ 96 := hs
      omega
    rw [pathComponent_short hv hs, pathComponent_short hw hsw] at h
    refine ⟨hs, Iff.mp Escaping.escape_eq_iff ?_⟩
    rw [h, Escaping.escape_append, hsuffix]
  · rintro ⟨hs, h⟩
    have hescape := h.escape_eq
    rw [Escaping.escape_append, hsuffix] at hescape
    have hsw : Short w := by
      have hlen := congrArg List.length hescape
      rw [length_escape, List.length_append, length_escape] at hlen
      have hmax : writtenLength (bytes v) ≤ maxComponentBytes := hs
      change writtenLength (bytes w) ≤ maxComponentBytes
      omega
    rw [pathComponent_short hv hs, pathComponent_short hw hsw, hescape]

/-! ## Where a document goes -/

theorem safeFolder_of_folderOf {metadata : Value} {folder : String}
    (h : folderOf metadata = some folder) : safeFolder folder = true := by
  rw [folderOf, Option.filter_eq_some_iff] at h
  exact h.2

/-- Neither the empty name nor the parent directory is a safe folder. -/
theorem safeFolder_special : safeFolder "" = false ∧ safeFolder ".." = false := by
  decide +kernel

theorem folder_ne_empty {metadata : Value} {folder : String}
    (h : folderOf metadata = some folder) : folder ≠ "" := by
  rintro rfl
  cases safeFolder_special.1.symm.trans (safeFolder_of_folderOf h)

/-- The parent directory is not a safe folder. -/
theorem folder_ne_parent {metadata : Value} {folder : String}
    (h : folderOf metadata = some folder) : folder ≠ ".." := by
  rintro rfl
  cases safeFolder_special.2.symm.trans (safeFolder_of_folderOf h)

/-- What the caller of an export promises about the names of a document. -/
structure Named (detail : DocumentDetail) : Prop where
  project : detail.summary.project ≠ ""
  source : detail.summary.source ≠ ""
  sourceId : detail.summary.sourceId ≠ ""

/-- The names below the staging directory, the file last. -/
def placeOf (sha : Sha256) (detail : DocumentDetail) : List (List UInt8) :=
  [pathComponent sha detail.summary.project, pathComponent sha detail.summary.source] ++
    ((folderOf detail.metadata).map (pathComponent sha)).toList ++
    [pathComponent sha detail.summary.sourceId ++ bytes ".md"]

variable {detail : DocumentDetail}

theorem file_noSep (sha : Sha256) (hw : w ≠ "") :
    (Letters.sep : UInt8) ∉ pathComponent sha w ++ bytes ".md" := by
  intro h
  rcases List.mem_append.mp h with h | h
  · exact pathComponent_noSep hw h
  · exact absurd h (by decide)

theorem isName_file (sha : Sha256) (hw : w ≠ "") : IsName (pathComponent sha w ++ bytes ".md") where
  nonempty := by simp [pathComponent_ne_nil hw]
  noSep := file_noSep sha hw
  notCurrent h := by
    have hlen := congrArg List.length h
    rw [List.length_append, show (bytes ".md").length = 3 from by decide] at hlen
    simp at hlen
  notParent h := by
    have hlen := congrArg List.length h
    rw [List.length_append, show (bytes ".md").length = 3 from by decide] at hlen
    simp at hlen

theorem relativePath_shape (sha : Sha256) (h : Named detail) :
    rooted (relativePath sha detail) = false ∧
      segments (relativePath sha detail) = placeOf sha detail := by
  have hone : ∀ {v : String}, v ≠ "" → rooted (pathComponent sha v) = false ∧
      segments (pathComponent sha v) = [pathComponent sha v] := fun hv ↦
    ⟨not_rooted (pathComponent_noSep hv),
      segments_singleton (pathComponent_ne_nil hv) (pathComponent_noSep hv)⟩
  obtain ⟨hrootP, hsegP⟩ := hone h.project
  obtain ⟨hrootS, hsegS⟩ := hone h.source
  have hrootF := not_rooted (file_noSep sha h.sourceId)
  have hsegF := segments_of_isName (isName_file sha h.sourceId)
  rw [relativePath, placeOf]
  cases hfolder : folderOf detail.metadata with
  | none =>
      refine ⟨?_, ?_⟩
      · simp only [Option.map_none, Option.elim_none]
        rw [rooted_join hrootF, rooted_join hrootS, hrootP]
      · simp only [Option.map_none, Option.elim_none]
        rw [segments_join hrootF, segments_join hrootS, hsegP, hsegS, hsegF]
        rfl
  | some folder =>
      obtain ⟨hrootD, hsegD⟩ := hone (folder_ne_empty hfolder)
      refine ⟨?_, ?_⟩
      · simp only [Option.map_some, Option.elim_some]
        rw [rooted_join hrootF, rooted_join hrootD, rooted_join hrootS, hrootP]
      · simp only [Option.map_some, Option.elim_some]
        rw [segments_join hrootF, segments_join hrootD, segments_join hrootS, hsegP, hsegS, hsegD,
          hsegF]
        rfl

/-! ## Safe layouts -/

/-- Every document has a file of its own below the staging directory, and the
export can write all of them, in whatever order. -/
structure SafeLayout (sha : Sha256) (docs : List DocumentDetail) : Prop where
  distinct : docs.Pairwise fun d e ↦
    components (relativePath sha d) ≠ components (relativePath sha e)
  prefixFree : docs.Pairwise fun d e ↦
    ¬components (relativePath sha d) <+: components (relativePath sha e) ∧
      ¬components (relativePath sha e) <+: components (relativePath sha d)
  below : ∀ d ∈ docs, rooted (relativePath sha d) = false ∧
    ∀ s ∈ segments (relativePath sha d), IsName s
  written : ∀ (stage : Location UInt8) (order : List DocumentDetail), order.Perm docs →
    (stageDocuments stage (order.map (renderDocument sha))).isSome = true

/-- No name of the document is made of dots. -/
structure NoDots (detail : DocumentDetail) : Prop where
  project : detail.summary.project ≠ "." ∧ detail.summary.project ≠ ".."
  source : detail.summary.source ≠ "." ∧ detail.summary.source ≠ ".."
  folder : folderOf detail.metadata ≠ some "."

/-- The folders share a name, or there is none on either side. -/
def SameFolder (sha : Sha256) : Option String → Option String → Prop
  | none, none => True
  | some f, some g => SameName sha f g
  | _, _ => False

/-- All names of the documents are shared. -/
structure SamePlace (sha : Sha256) (d e : DocumentDetail) : Prop where
  project : SameName sha d.summary.project e.summary.project
  source : SameName sha d.summary.source e.summary.source
  folder : SameFolder sha (folderOf d.metadata) (folderOf e.metadata)
  sourceId : SameName sha d.summary.sourceId e.summary.sourceId

/-- The first document has no folder, and its file is called as the folder of
the second one beside it. -/
structure Shadows (sha : Sha256) (d e : DocumentDetail) : Prop where
  project : SameName sha d.summary.project e.summary.project
  source : SameName sha d.summary.source e.summary.source
  noFolder : folderOf d.metadata = none
  folder : ∃ f, folderOf e.metadata = some f ∧ Short f ∧
    fileNames.Respells (bytes f) (bytes d.summary.sourceId ++ bytes ".md")

/-- The names of the documents are told apart by their escaped forms. -/
structure Unambiguous (sha : Sha256) (docs : List DocumentDetail) : Prop where
  noDots : ∀ d ∈ docs, NoDots d
  apart : docs.Pairwise fun d e ↦
    ¬SamePlace sha d e ∧ ¬Shadows sha d e ∧ ¬Shadows sha e d

def namesOf (detail : DocumentDetail) : List String :=
  [detail.summary.project, detail.summary.source, detail.summary.sourceId] ++
    (folderOf detail.metadata).toList

/-- The digest digits that end a shortened name tell the names apart. -/
def CollisionFree (sha : Sha256) (docs : List DocumentDetail) : Prop :=
  ∀ d ∈ docs, ∀ e ∈ docs, ∀ v ∈ namesOf d, ∀ w ∈ namesOf e,
    (hexDigest sha (bytes v)).take 15 = (hexDigest sha (bytes w)).take 15 → v = w

variable {docs : List DocumentDetail} {d e : DocumentDetail}

theorem placeOf_prefix_iff (hd : Named d) (he : Named e)
    (hfree : ∀ v ∈ namesOf d, ∀ w ∈ namesOf e,
      (hexDigest sha (bytes v)).take 15 = (hexDigest sha (bytes w)).take 15 → v = w) :
    placeOf sha d <+: placeOf sha e ↔ SamePlace sha d e ∨ Shadows sha d e := by
  have hproject := pathComponent_eq_iff hd.project he.project
    (hfree _ (by simp [namesOf]) _ (by simp [namesOf]))
  have hsource := pathComponent_eq_iff hd.source he.source
    (hfree _ (by simp [namesOf]) _ (by simp [namesOf]))
  have hid := pathComponent_eq_iff hd.sourceId he.sourceId
    (hfree _ (by simp [namesOf]) _ (by simp [namesOf]))
  cases hfd : folderOf d.metadata with
  | none =>
      cases hfe : folderOf e.metadata with
      | none =>
          have hplace : placeOf sha d <+: placeOf sha e ↔
              SameName sha d.summary.project e.summary.project ∧
                SameName sha d.summary.source e.summary.source ∧
                SameName sha d.summary.sourceId e.summary.sourceId := by
            simp [placeOf, hfd, hfe, List.cons_prefix_cons, hproject, hsource, hid]
          rw [hplace]
          constructor
          · rintro ⟨hp, hs, hi⟩
            exact .inl ⟨hp, hs, by rw [hfd, hfe]; trivial, hi⟩
          · rintro (h | h)
            · exact ⟨h.project, h.source, h.sourceId⟩
            · obtain ⟨f, hf, -⟩ := h.folder
              simp [hfe] at hf
      | some f =>
          have hfile := pathComponent_eq_file_iff sha (folder_ne_empty hfe) hd.sourceId
          have hplace : placeOf sha d <+: placeOf sha e ↔
              SameName sha d.summary.project e.summary.project ∧
                SameName sha d.summary.source e.summary.source ∧ Short f ∧
                fileNames.Respells (bytes f) (bytes d.summary.sourceId ++ bytes ".md") := by
            rw [← hfile, eq_comm (a := pathComponent sha f)]
            simp [placeOf, hfd, hfe, List.cons_prefix_cons, hproject, hsource]
          rw [hplace]
          constructor
          · rintro ⟨hp, hs, hf⟩
            exact .inr ⟨hp, hs, hfd, f, hfe, hf⟩
          · rintro (h | h)
            · have hfolder := h.folder
              rw [hfd, hfe] at hfolder
              exact hfolder.elim
            · obtain ⟨g, hg, hname⟩ := h.folder
              obtain rfl : f = g := by simpa [hfe] using hg
              exact ⟨h.project, h.source, hname⟩
  | some f =>
      have hno : ¬Shadows sha d e := fun h ↦ by simpa [hfd] using h.noFolder
      cases hfe : folderOf e.metadata with
      | none =>
          have hplace : ¬placeOf sha d <+: placeOf sha e := fun h ↦ by
            have hlen := h.length_le
            simp [placeOf, hfd, hfe] at hlen
          refine ⟨fun h ↦ absurd h hplace, ?_⟩
          rintro (h | h)
          · have hfolder := h.folder
            rw [hfd, hfe] at hfolder
            exact hfolder.elim
          · exact absurd h hno
      | some g =>
          have hfolder := pathComponent_eq_iff (folder_ne_empty hfd) (folder_ne_empty hfe)
            (hfree f (by simp [namesOf, hfd]) g (by simp [namesOf, hfe]))
          have hplace : placeOf sha d <+: placeOf sha e ↔
              SameName sha d.summary.project e.summary.project ∧
                SameName sha d.summary.source e.summary.source ∧ SameName sha f g ∧
                SameName sha d.summary.sourceId e.summary.sourceId := by
            simp [placeOf, hfd, hfe, List.cons_prefix_cons, hproject, hsource, hid, hfolder]
          rw [hplace]
          constructor
          · rintro ⟨hp, hs, hf, hi⟩
            exact .inl ⟨hp, hs, by rw [hfd, hfe]; exact hf, hi⟩
          · rintro (h | h)
            · have hf := h.folder
              rw [hfd, hfe] at hf
              exact ⟨h.project, h.source, hf, h.sourceId⟩
            · exact absurd h hno

/-- The names of a path are plain exactly when no text it is made of is dots. -/
theorem isName_segments_iff (h : Named d) :
    (∀ s ∈ segments (relativePath sha d), IsName s) ↔ NoDots d := by
  have hproject := isName_pathComponent sha h.project
  have hsource := isName_pathComponent sha h.source
  have hfile := isName_file sha h.sourceId
  rw [(relativePath_shape sha h).2, placeOf]
  cases hfolder : folderOf d.metadata with
  | none =>
      constructor
      · intro hall
        exact ⟨hproject.mp (hall _ (by simp)), hsource.mp (hall _ (by simp)), by simp [hfolder]⟩
      · intro hno
        simp [hproject.mpr hno.project, hsource.mpr hno.source, hfile]
  | some f =>
      have hf := isName_pathComponent sha (folder_ne_empty hfolder)
      constructor
      · intro hall
        refine ⟨hproject.mp (hall _ (by simp)), hsource.mp (hall _ (by simp)), ?_⟩
        rw [hfolder, Ne, Option.some.injEq]
        exact (hf.mp (hall _ (by simp))).1
      · intro hno
        have hdot := hno.folder
        rw [hfolder, Ne, Option.some.injEq] at hdot
        simp [hproject.mpr hno.project, hsource.mpr hno.source, hfile,
          hf.mpr ⟨hdot, folder_ne_parent hfolder⟩]

theorem components_relativePath (h : Named d) (hno : NoDots d) :
    components (relativePath sha d) = (placeOf sha d).map .normal := by
  obtain ⟨hroot, hsegs⟩ := relativePath_shape sha h
  rw [components_of_isName_segments hroot ((isName_segments_iff h).mpr hno), hsegs]

theorem resolve_relativePath (stage : Location UInt8) (h : Named d) (hno : NoDots d) :
    resolve stage (relativePath sha d) = stage ++ placeOf sha d := by
  obtain ⟨hroot, hsegs⟩ := relativePath_shape sha h
  rw [resolve_of_isName_segments hroot ((isName_segments_iff h).mpr hno), hsegs]

/-- Documents of which none stands in the way of another are all written. -/
theorem stageDocuments_isSome (stage : Location UInt8) {order : List DocumentDetail}
    (hnamed : ∀ d ∈ order, Named d ∧ NoDots d)
    (hfree : order.Pairwise fun d e ↦
      ¬placeOf sha d <+: placeOf sha e ∧ ¬placeOf sha e <+: placeOf sha d) :
    (stageDocuments stage (order.map (renderDocument sha))).isSome = true := by
  let locs := order.map fun d ↦ stage ++ placeOf sha d
  have hloc : ∀ l ∈ locs, stage <+: l ∧ l ≠ stage := by
    intro l hl
    obtain ⟨d, -, rfl⟩ := List.mem_map.mp hl
    refine ⟨List.prefix_append _ _, fun h ↦ ?_⟩
    have hnil := List.append_right_eq_self.mp h
    simp [placeOf] at hnil
  have hpair : locs.Pairwise fun l m ↦ ¬Overlap l m := by
    refine List.pairwise_map.mpr (hfree.imp ?_)
    rintro d e ⟨h1, h2⟩ (h | h)
    · exact h1 ((List.prefix_append_right_inj stage).mp h)
    · exact h2 ((List.prefix_append_right_inj stage).mp h)
  obtain ⟨tree, htree⟩ := FileTree.exists_createFiles hloc hpair
  have hsame : ∀ (l : List DocumentDetail) (t : FileTree UInt8),
      (∀ d ∈ l, Named d ∧ NoDots d) →
      (l.map (renderDocument sha)).foldlM (stageDocument stage) t =
        (l.map fun d ↦ stage ++ placeOf sha d).foldlM FileTree.createFile t := by
    intro l
    induction l with
    | nil => exact fun _ _ ↦ rfl
    | cons d l ih =>
        intro t hl
        obtain ⟨hd, hrest⟩ := List.forall_mem_cons.mp hl
        have hstep : stageDocument stage t (renderDocument sha d) =
            t.createFile (stage ++ placeOf sha d) := by
          rw [← resolve_relativePath stage hd.1 hd.2]
          rfl
        rw [List.map_cons, List.map_cons, List.foldlM_cons, List.foldlM_cons, hstep]
        exact congrArg _ (funext fun u ↦ ih u hrest)
  rw [stageDocuments, hsame order _ hnamed, htree]
  rfl

/-- The export of documents whose digests do not collide is safe exactly when
their names are told apart by the escaped forms. -/
theorem safeLayout_iff_unambiguous (sha : Sha256) (docs : List DocumentDetail)
    (hnamed : ∀ d ∈ docs, Named d) (hfree : CollisionFree sha docs) :
    SafeLayout sha docs ↔ Unambiguous sha docs := by
  have hplace : ∀ d ∈ docs, ∀ e ∈ docs, (placeOf sha d <+: placeOf sha e ↔
      SamePlace sha d e ∨ Shadows sha d e) := fun d hd e he ↦
    placeOf_prefix_iff (hnamed d hd) (hnamed e he) (hfree d hd e he)
  have hcomponents : ∀ d ∈ docs, ∀ e ∈ docs, NoDots d → NoDots e →
      (components (relativePath sha d) <+: components (relativePath sha e) ↔
        placeOf sha d <+: placeOf sha e) := by
    intro d hd e he hnd hne
    have hinj : Function.Injective (Component.normal (α := UInt8)) := fun _ _ h ↦ by
      simpa using h
    rw [components_relativePath (hnamed d hd) hnd, components_relativePath (hnamed e he) hne,
      List.prefix_map_iff_of_injective hinj]
  constructor
  · intro h
    have hdots : ∀ d ∈ docs, NoDots d := fun d hd ↦
      (isName_segments_iff (hnamed d hd)).mp (h.below d hd).2
    refine ⟨hdots, h.prefixFree.imp_of_mem fun {d e} hd he hpre ↦ ?_⟩
    rw [hcomponents d hd e he (hdots d hd) (hdots e he),
      hcomponents e he d hd (hdots e he) (hdots d hd), hplace d hd e he, hplace e he d hd] at hpre
    simp only [not_or] at hpre
    exact ⟨hpre.1.1, hpre.1.2, hpre.2.2⟩
  · intro h
    have hsymm : ∀ d e, SamePlace sha e d → SamePlace sha d e := by
      intro d e hsame
      refine ⟨hsame.project.symm, hsame.source.symm, ?_, hsame.sourceId.symm⟩
      have hfolder := hsame.folder
      cases hd : folderOf d.metadata <;> cases he : folderOf e.metadata <;>
        rw [hd, he] at hfolder
      · exact hfolder
      · exact hfolder
      · exact hfolder
      · exact SameName.symm hfolder
    have hplaces : docs.Pairwise fun d e ↦
        ¬placeOf sha d <+: placeOf sha e ∧ ¬placeOf sha e <+: placeOf sha d := by
      refine h.apart.imp_of_mem fun {d e} hd he hapart ↦ ?_
      rw [hplace d hd e he, hplace e he d hd, not_or, not_or]
      exact ⟨⟨hapart.1, hapart.2.1⟩, fun hsame ↦ hapart.1 (hsymm d e hsame), hapart.2.2⟩
    have hpaths : docs.Pairwise fun d e ↦
        ¬components (relativePath sha d) <+: components (relativePath sha e) ∧
          ¬components (relativePath sha e) <+: components (relativePath sha d) := by
      refine hplaces.imp_of_mem fun {d e} hd he hplace ↦ ?_
      rw [hcomponents d hd e he (h.noDots d hd) (h.noDots e he),
        hcomponents e he d hd (h.noDots e he) (h.noDots d hd)]
      exact hplace
    refine ⟨hpaths.imp ?_, hpaths, ?_, ?_⟩
    · intro d e hpre heq
      rw [heq] at hpre
      exact hpre.1 (List.prefix_refl _)
    · intro d hd
      exact ⟨(relativePath_shape sha (hnamed d hd)).1,
        (isName_segments_iff (hnamed d hd)).mpr (h.noDots d hd)⟩
    · intro stage order horder
      refine stageDocuments_isSome stage (fun d hd ↦ ?_) ?_
      · have hmem := horder.mem_iff.mp hd
        exact ⟨hnamed d hmem, h.noDots d hmem⟩
      · exact (horder.symm.pairwise hplaces fun {_ _} hpair ↦ ⟨hpair.2, hpair.1⟩)

def DocumentDetail.sample (sourceId : String) (folder : Option String) : DocumentDetail where
  summary :=
    { id := sourceId, source := "notes", sourceId := sourceId, title := "Notes", uri := none
      updatedAt := "2026-01-01T00:00:00Z", project := "work", acl := [], contentRevision := "1" }
  content := "text"
  metadata := .object (folder.toList.map fun name ↦ ("folder", .string name))

theorem DocumentDetail.named_sample (sourceId : String) (folder : Option String)
    (h : sourceId ≠ "") : Named (.sample sourceId folder) where
  project := fun hnil ↦ absurd hnil (by decide : "work" ≠ "")
  source := fun hnil ↦ absurd hnil (by decide : "notes" ≠ "")
  sourceId := h

theorem safeLayout_iff_unambiguous_sample :
    SafeLayout .sample [.sample "a/b" none, .sample "a-b" (some "plans")] ↔
      Unambiguous .sample [.sample "a/b" none, .sample "a-b" (some "plans")] := by
  apply safeLayout_iff_unambiguous
  · simp only [List.forall_mem_cons, List.not_mem_nil, false_implies, implies_true, and_true]
    exact ⟨DocumentDetail.named_sample _ _ (by decide), DocumentDetail.named_sample _ _ (by decide)⟩
  · unfold CollisionFree
    decide +kernel

/-- A slash and its code written out give two documents one file. -/
theorem layout_shared :
    ¬∀ (sha : Sha256) (docs : List DocumentDetail), (∀ d ∈ docs, Named d) →
      (docs.Pairwise fun d e ↦
        (d.summary.source, d.summary.sourceId) ≠ (e.summary.source, e.summary.sourceId)) →
      CollisionFree sha docs → SafeLayout sha docs := by
  intro hall
  have hnamed : ∀ d ∈ [DocumentDetail.sample "a/b" none, .sample "a_2Fb" none], Named d := by
    simp only [List.forall_mem_cons, List.not_mem_nil, false_implies, implies_true, and_true]
    exact ⟨DocumentDetail.named_sample _ _ (by decide), DocumentDetail.named_sample _ _ (by decide)⟩
  have hsafe := hall .sample [.sample "a/b" none, .sample "a_2Fb" none] hnamed
    (by decide +kernel) (by unfold CollisionFree; decide +kernel)
  have hdistinct := (List.pairwise_cons.mp hsafe.distinct).1 _ List.mem_cons_self
  exact hdistinct (by decide +kernel)

end Vault

end Cortana
