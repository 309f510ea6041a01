import Cortana.Control.Destruction

/-!
# Isolation of data planes

A tenant and a team control plane on one machine, with calls from processes in
any directories.  Every data plane is a site in the file system, live until its
receipt was written.  A call leaves the sites as they are, builds one or removes
a directory; what a removal leaves alone is shown on the list of the sites.
-/

namespace Cortana

open Pathname Transition

/-! ## Sites -/

/-- A directory with a store. -/
structure Site where
  live : Bool
  loc : Location Char

namespace Site

variable {control : List (Location Char)} {sites sites' : List Site}
  {files files' : List (Location Char)}

def store (s : Site) : Location Char := s.loc ++ [storeFile.toList]

/-- No directory lies in another one or holds a control file, and what is
stored in the live ones and the control files are there. -/
structure Kept (control : List (Location Char)) (sites : List Site)
    (files : List (Location Char)) : Prop where
  apart : sites.Pairwise fun s t ↦ ¬Overlap s.loc t.loc
  outside : ∀ s ∈ sites, ∀ c ∈ control, ¬s.loc <+: c
  stores : ∀ s ∈ sites, s.live = true → s.store ∈ files
  control : ∀ c ∈ control, c ∈ files

/-- A directory that may be built beside the sites. -/
structure Free (control : List (Location Char)) (sites : List Site) (loc : Location Char) :
    Prop where
  apart : ∀ s ∈ sites, ¬Overlap loc s.loc
  outside : ∀ c ∈ control, ¬loc <+: c

instance (control : List (Location Char)) (sites : List Site) (loc : Location Char) :
    Decidable (Free control sites loc) :=
  decidable_of_iff ((∀ s ∈ sites, ¬Overlap loc s.loc) ∧ ∀ c ∈ control, ¬loc <+: c)
    ⟨fun h ↦ ⟨h.1, h.2⟩, fun h ↦ ⟨h.1, h.2⟩⟩

/-- A directory whose removal takes along no control file, and no file of a live site but
the one at `own`. -/
structure Harmless (control : List (Location Char)) (sites : List Site)
    (files : List (Location Char)) (own target : Location Char) : Prop where
  outside : ∀ c ∈ control, ¬target <+: c
  apart : ∀ s ∈ sites, s.live = true → s.loc ≠ own → ¬target <+: s.loc
  empty : ∀ s ∈ sites, s.live = true → s.loc ≠ own → s.loc <+: target →
    ∀ f ∈ files, ¬target <+: f

/-- What a call does to the directories: it builds a data plane, or it removes the
directory at `target` for the data plane that was built at `own`. -/
inductive Change where
  | stays
  | builds (loc : Location Char)
  | removes (own target : Location Char)

variable {change : Change}

/-- The new data plane is built beside the sites, and what is removed is where the data
plane was built, or harmless. -/
def Change.Clear (control : List (Location Char)) (sites : List Site)
    (files : List (Location Char)) : Change → Prop
  | .stays => True
  | .builds loc => Free control sites loc
  | .removes own target => target = own ∨ Harmless control sites files own target

/-- Where a change builds. -/
def Change.built : Change → List (Location Char)
  | .builds loc => [loc]
  | .stays | .removes _ _ => []

/-- What a call makes of the sites and the files. -/
inductive Move (sites : List Site) (files : List (Location Char)) :
    Change → List Site → List (Location Char) → Prop where
  | stayed {files' : List (Location Char)} : (∀ f ∈ files, f ∈ files') →
      Move sites files .stays sites files'
  | built {before after : List Site} {s : Site} {files' : List (Location Char)} :
      sites = before ++ after → s.live = true → (∀ f ∈ files, f ∈ files') → s.store ∈ files' →
      Move sites files (.builds s.loc) (before ++ s :: after) files'
  | closed {before after : List Site} {s : Site} {files' : List (Location Char)} :
      sites = before ++ s :: after → (∀ f ∈ files, f ∈ files') →
      Move sites files .stays (before ++ ⟨false, s.loc⟩ :: after) files'
  | removed {before after : List Site} {s : Site} {target : Location Char}
      {files' : List (Location Char)} :
      sites = before ++ s :: after → (∀ f ∈ files, f ∈ files' ↔ ¬target <+: f) →
      Move sites files (.removes s.loc target) (before ++ ⟨false, s.loc⟩ :: after) files'

/-- No file that is lost was a control file or in a live site. -/
def Spares (control : List (Location Char)) (sites' : List Site)
    (files files' : List (Location Char)) : Prop :=
  ∀ f ∈ files, f ∉ files' → f ∉ control ∧ ∀ t ∈ sites', t.live = true → ¬t.loc <+: f

/-- A move among some of the sites is one among all of them. -/
theorem Move.within (front back : List Site) (h : Move sites files change sites' files') :
    Move (front ++ sites ++ back) files change (front ++ sites' ++ back) files' := by
  cases h with
  | stayed hfiles => exact .stayed hfiles
  | @built before after s _ hsplit hlive hfiles hstore =>
      have hall : front ++ sites ++ back = (front ++ before) ++ (after ++ back) := by
        rw [hsplit]
        simp only [List.append_assoc]
      have hmove : Move _ files _ _ files' := .built hall hlive hfiles hstore
      simpa only [List.append_assoc, List.cons_append] using hmove
  | @closed before after s _ hsplit hfiles =>
      have hall : front ++ sites ++ back = (front ++ before) ++ s :: (after ++ back) := by
        rw [hsplit]
        simp only [List.append_assoc, List.cons_append]
      have hmove : Move _ files _ _ files' := .closed hall hfiles
      simpa only [List.append_assoc, List.cons_append] using hmove
  | @removed before after s target _ hsplit hleft =>
      have hall : front ++ sites ++ back = (front ++ before) ++ s :: (after ++ back) := by
        rw [hsplit]
        simp only [List.append_assoc, List.cons_append]
      have hmove : Move _ files _ _ files' := .removed hall hleft
      simpa only [List.append_assoc, List.cons_append] using hmove

theorem pairwise_middle {before after : List Site} {s : Site} :
    (before ++ s :: after).Pairwise (fun s t ↦ ¬Overlap s.loc t.loc) ↔
      (∀ t ∈ before ++ after, ¬Overlap s.loc t.loc) ∧
        (before ++ after).Pairwise fun s t ↦ ¬Overlap s.loc t.loc :=
  (List.pairwise_middle fun happart hover ↦ happart hover.symm).trans List.pairwise_cons

theorem spares_of_subset (h : ∀ f ∈ files, f ∈ files') : Spares control sites files files' :=
  fun f hf hlost ↦ absurd (h f hf) hlost

section Removal

variable {before after : List Site} {s : Site} {target : Location Char}

/-- The directory where a data plane was built holds nothing of the others. -/
theorem Kept.harmless (h : Kept control (before ++ s :: after) files) :
    Harmless control (before ++ s :: after) files s.loc s.loc := by
  have hothers := (Iff.mp pairwise_middle h.apart).1
  have hother : ∀ t ∈ before ++ s :: after, t.loc ≠ s.loc → ¬Overlap s.loc t.loc := by
    intro t ht hne
    rcases List.mem_cons.mp (List.perm_middle.mem_iff.mp ht) with rfl | ht
    · exact absurd rfl hne
    · exact hothers t ht
  exact ⟨h.outside s (by simp), fun t ht _ hne hpre ↦ hother t ht hne (.inl hpre),
    fun t ht _ hne hpre ↦ absurd (.inr hpre) (hother t ht hne)⟩

/-- The removal of a harmless directory spares the other sites. -/
theorem Harmless.spares (h : Harmless control (before ++ s :: after) files s.loc target)
    (hkept : Kept control (before ++ s :: after) files)
    (hleft : ∀ f ∈ files, f ∈ files' ↔ ¬target <+: f) :
    Spares control (before ++ ⟨false, s.loc⟩ :: after) files files' := by
  intro f hf hlost
  have hbelow : target <+: f := by
    by_contra hout
    exact hlost ((hleft f hf).mpr hout)
  refine ⟨fun hcontrol ↦ h.outside f hcontrol hbelow, fun t ht hlive hinside ↦ ?_⟩
  rcases List.mem_cons.mp (List.perm_middle.mem_iff.mp ht) with rfl | ht
  · cases hlive
  · have hin : t ∈ before ++ s :: after :=
      List.perm_middle.mem_iff.mpr (List.mem_cons_of_mem s ht)
    have hne : t.loc ≠ s.loc := fun heq ↦
      (Iff.mp pairwise_middle hkept.apart).1 t ht (by rw [heq]; exact Overlap.refl _)
    rcases List.prefix_or_prefix_of_prefix hbelow hinside with hpre | hpre
    · exact h.apart t hin hlive hne hpre
    · exact h.empty t hin hlive hne hpre f hf hbelow

/-- A directory whose removal spares the other sites is harmless. -/
theorem Harmless.of_spares
    (h : Spares control (before ++ ⟨false, s.loc⟩ :: after) files files')
    (hkept : Kept control (before ++ s :: after) files)
    (hleft : ∀ f ∈ files, f ∈ files' ↔ ¬target <+: f) :
    Harmless control (before ++ s :: after) files s.loc target := by
  have hlost : ∀ f ∈ files, target <+: f → f ∉ files' := fun f hf hbelow hstays ↦
    (hleft f hf).mp hstays hbelow
  have hstays : ∀ t ∈ before ++ s :: after, t.loc ≠ s.loc →
      t ∈ before ++ ⟨false, s.loc⟩ :: after := by
    intro t ht hne
    rcases List.mem_cons.mp (List.perm_middle.mem_iff.mp ht) with rfl | ht
    · exact absurd rfl hne
    · exact List.perm_middle.mem_iff.mpr (List.mem_cons_of_mem _ ht)
  refine ⟨fun c hc hbelow ↦ ?_, fun t ht hlive hne hbelow ↦ ?_,
    fun t ht hlive hne hpre f hf hbelow ↦ ?_⟩
  · have hthere := hkept.control c hc
    exact (h c hthere (hlost c hthere hbelow)).1 hc
  · have hthere := hkept.stores t ht hlive
    exact (h _ hthere (hlost _ hthere (hbelow.trans (List.prefix_append _ _)))).2 t
      (hstays t ht hne) hlive (List.prefix_append _ _)
  · exact (h f hf (hlost f hf hbelow)).2 t (hstays t ht hne) hlive (hpre.trans hbelow)

/-- Where the others are spared, the state of the sites is kept. -/
theorem Kept.close (h : Kept control (before ++ s :: after) files)
    (hspares : Spares control (before ++ ⟨false, s.loc⟩ :: after) files files') :
    Kept control (before ++ ⟨false, s.loc⟩ :: after) files' := by
  obtain ⟨happart, hothers⟩ := Iff.mp pairwise_middle h.apart
  have hold : ∀ t ∈ before ++ after, t ∈ before ++ s :: after := fun t ht ↦
    List.perm_middle.mem_iff.mpr (List.mem_cons_of_mem s ht)
  refine ⟨Iff.mpr pairwise_middle ⟨happart, hothers⟩, fun t ht ↦ ?_, fun t ht hlive ↦ ?_,
    fun c hc ↦ ?_⟩
  · rcases List.mem_cons.mp (List.perm_middle.mem_iff.mp ht) with rfl | ht
    · exact h.outside s (by simp)
    · exact h.outside t (hold t ht)
  · rcases List.mem_cons.mp (List.perm_middle.mem_iff.mp ht) with rfl | hmem
    · cases hlive
    · by_contra hlost
      exact (hspares _ (h.stores t (hold t hmem) hlive) hlost).2 t ht hlive
        (List.prefix_append _ _)
  · by_contra hlost
    exact (hspares c (h.control c hc) hlost).1 hc

end Removal

/-- The state of the sites is kept by a new one just when it is built at a free place. -/
theorem Kept.build_iff {before after : List Site} {s : Site}
    (h : Kept control (before ++ after) files) (hfiles : ∀ f ∈ files, f ∈ files')
    (hstore : s.store ∈ files') :
    Kept control (before ++ s :: after) files' ↔ Free control (before ++ after) s.loc := by
  constructor
  · intro hnext
    exact ⟨(Iff.mp pairwise_middle hnext.apart).1, hnext.outside s (by simp)⟩
  · intro hfree
    refine ⟨Iff.mpr pairwise_middle ⟨hfree.apart, h.apart⟩, fun t ht ↦ ?_, fun t ht hlive ↦ ?_,
      fun c hc ↦ hfiles c (h.control c hc)⟩
    · rcases List.mem_cons.mp (List.perm_middle.mem_iff.mp ht) with rfl | ht
      · exact hfree.outside
      · exact h.outside t ht
    · rcases List.mem_cons.mp (List.perm_middle.mem_iff.mp ht) with rfl | hold
      · exact hstore
      · exact hfiles _ (h.stores t hold hlive)

/-- A move keeps the state of the sites and spares the others just when it is clear. -/
theorem Move.kept_iff (h : Move sites files change sites' files')
    (hkept : Kept control sites files) :
    (Kept control sites' files' ∧ Spares control sites' files files') ↔
      change.Clear control sites files := by
  cases h with
  | stayed hfiles =>
      refine iff_of_true ⟨⟨hkept.apart, hkept.outside, fun t ht hlive ↦ ?_, fun c hc ↦ ?_⟩,
        spares_of_subset hfiles⟩ trivial
      · exact hfiles _ (hkept.stores t ht hlive)
      · exact hfiles c (hkept.control c hc)
  | built hsplit _ hfiles hstore =>
      subst hsplit
      exact (and_iff_left (spares_of_subset hfiles)).trans (hkept.build_iff hfiles hstore)
  | closed hsplit hfiles =>
      subst hsplit
      exact iff_of_true ⟨hkept.close (spares_of_subset hfiles), spares_of_subset hfiles⟩ trivial
  | @removed before after s target _ hsplit hleft =>
      subst hsplit
      constructor
      · rintro ⟨-, hspares⟩
        exact .inr (.of_spares hspares hkept hleft)
      · intro hclear
        have hharmless : Harmless control (before ++ s :: after) files s.loc target := by
          rcases hclear with rfl | hharmless
          · exact hkept.harmless
          · exact hharmless
        have hspares := hharmless.spares hkept hleft
        exact ⟨hkept.close hspares, hspares⟩

/-! ## Registered data planes -/

section Registered

variable {ρ : Type} {live : ρ → Bool} {key : ρ → String} {id : String} {rows before after : List ρ}
  {r : ρ} {places : List (Location Char)} {own : Location Char}

/-- The sites of the rows of a registry, whose data planes were built at the places. -/
def ofRows (live : ρ → Bool) (rows : List ρ) (places : List (Location Char)) : List Site :=
  List.zipWith (fun r loc ↦ ⟨live r, loc⟩) rows places

/-- The first row with an id, and where its data plane was built. -/
def rowOf (key : ρ → String) (id : String) (rows : List ρ) (places : List (Location Char)) :
    Option (ρ × Location Char) :=
  (rows.zip places).find? fun p ↦ key p.1 == id

theorem ofRows_append (h : places.length = rows.length) (new : ρ) (loc : Location Char) :
    ofRows live (rows ++ [new]) (places ++ [loc]) = ofRows live rows places ++ [⟨live new, loc⟩] := by
  rw [ofRows, List.zipWith_append h.symm]
  rfl

variable (live) in
/-- A row has a place of its own among the sites. -/
theorem ofRows_split (h : places.length = rows.length)
    (hfirst : FirstWith key id rows before r after) :
    ∃ own front back, rowOf key id rows places = some (r, own) ∧
      ∀ r', ofRows live (before ++ r' :: after) places = front ++ ⟨live r', own⟩ :: back := by
  rw [hfirst.split, List.length_append, List.length_cons] at h
  obtain ⟨own, rest, hdrop⟩ := List.exists_cons_of_length_pos
    (l := places.drop before.length) (by rw [List.length_drop]; omega)
  have hplaces : places = places.take before.length ++ own :: rest := by
    rw [← hdrop, List.take_append_drop]
  have htake : before.length = (places.take before.length).length := by
    rw [List.length_take]
    omega
  refine ⟨own, ofRows live before (places.take before.length), ofRows live after rest, ?_,
    fun r' ↦ ?_⟩
  · rw [rowOf, hfirst.split, hplaces, List.zip_append htake, List.zip_cons_cons]
    refine Registry.find?_of_split (fun p hp ↦ ?_) (by simp [hfirst.found])
    exact hfirst.before p.1 (List.of_mem_zip hp).1
  · rw [hplaces, ofRows, List.zipWith_append htake, List.zipWith_cons_cons, ← hplaces]
    rfl

theorem ofRows_replaced (h : places.length = rows.length) {r' : ρ}
    (hfirst : FirstWith key id rows before r after) (hlive : live r' = live r) :
    ofRows live (before ++ r' :: after) places = ofRows live rows places := by
  obtain ⟨own, front, back, -, hsites⟩ := ofRows_split live h hfirst
  have hold := hsites r
  rw [← hfirst.split] at hold
  rw [hsites, hold, hlive]

theorem firstWith_of_rowOf (h : places.length = rows.length)
    (hfound : rowOf key id rows places = some (r, own)) :
    ∃ before after, FirstWith key id rows before r after := by
  obtain ⟨hid, front, back, hsplit, hfront⟩ := List.find?_eq_some_iff_append.mp hfound
  refine ⟨front.map Prod.fst, back.map Prod.fst, ?_, fun x hx ↦ ?_, by simpa using hid⟩
  · rw [← List.map_fst_zip h.ge, hsplit, List.map_append, List.map_cons]
  · obtain ⟨p, hp, rfl⟩ := List.mem_map.mp hx
    simpa using hfront p hp

end Registered

end Site

/-! ## The moves of the calls -/

namespace Host

variable {host : Host} {tree tree' : FileTree Char} {path : String} {sites : List Site}

/-- The disk with a new data plane, if one can be made at the path. -/
@[grind =] def places (host : Host) (tree : FileTree Char) (path : String) :
    Option (FileTree Char) :=
  (host.createDirAll tree path).bind fun made ↦ host.openStore made path

/-- Where the process finds the registry. -/
def registryAt (host : Host) : Location Char := host.resolve host.registryFile

theorem mem_files_places (h : host.places tree path = some tree') {f : Location Char} :
    f ∈ tree'.files ↔ f ∈ tree.files ∨ f = host.storeAt path := by
  obtain ⟨made, hmade, hopened⟩ := Option.bind_eq_some_iff.mp h
  rw [mem_files_openStore hopened, files_createDirAll hmade]

theorem move_of_places (sites : List Site) (h : host.places tree path = some tree') :
    Site.Move sites tree.files (.builds (host.resolve path))
      (sites ++ [⟨true, host.resolve path⟩]) tree'.files :=
  .built (s := ⟨true, host.resolve path⟩) (List.append_nil sites).symm rfl
    (fun _ hf ↦ (mem_files_places h).mpr (.inl hf)) ((mem_files_places h).mpr (.inr rfl))

/-- What a call does that builds a data plane where it passes its checks. -/
def building (host : Host) (tree : FileTree Char) (path : String) (admitted : Bool) : Site.Change :=
  if admitted = true ∧ host.places tree path ≠ none then .builds (host.resolve path) else .stays

/-- What a call does that removes the data plane which was built at `own`. -/
def removing (host : Host) (tree : FileTree Char) (path : String) (own : Location Char) :
    Site.Change :=
  if host.isDir tree path then .removes own (host.resolve path) else .stays

theorem move_of_destroy (host : Host) (tree : FileTree Char) (path : String) {front back : List Site}
    {s : Site} (hsplit : sites = front ++ s :: back) :
    Site.Move sites tree.files (host.removing tree path s.loc) (front ++ ⟨false, s.loc⟩ :: back)
      (host.destroy tree path).files := by
  rw [destroy, removing]
  split
  · refine .removed hsplit fun f hf ↦ ?_
    rw [FileTree.mem_files_removeDirAll]
    exact and_iff_right hf
  · exact .closed hsplit fun f hf ↦ hf

theorem built_removing (host : Host) (tree : FileTree Char) (path : String)
    (own : Location Char) : (host.removing tree path own).built = [] := by
  rw [removing]
  split <;> rfl

theorem move_of_removal {ρ : Type} (live : ρ → Bool) {key : ρ → String} {id : String}
    {rows before after : List ρ} {r r' : ρ} {places : List (Location Char)} (host : Host)
    (tree : FileTree Char) (path : String) (h : places.length = rows.length)
    (hfirst : FirstWith key id rows before r after) (hlive : live r' = false) :
    ∃ own, Site.rowOf key id rows places = some (r, own) ∧
      Site.Move (Site.ofRows live rows places) tree.files (host.removing tree path own)
        (Site.ofRows live (before ++ r' :: after) places) (host.destroy tree path).files := by
  obtain ⟨own, front, back, hfound, hsites⟩ := Site.ofRows_split live h hfirst
  have hold := hsites r
  rw [← hfirst.split] at hold
  refine ⟨own, hfound, ?_⟩
  rw [hsites r', hlive]
  exact move_of_destroy host tree path hold

end Host

namespace TenantControlPlane

variable {codec : ControlCodec} {occasion : Occasion} {s t : TenantControlPlane}
  {tree : FileTree Char} {places : List (Location Char)}

/-- The sites of the tenants. -/
def sites (s : TenantControlPlane) (places : List (Location Char)) : List Site :=
  Site.ofRows (fun r : TenantRecord ↦ decide (r.status ≠ .purged)) s.registry places

/-- What a call does to the directories. -/
def change (s : TenantControlPlane) (places : List (Location Char)) (occasion : Occasion)
    (tree : FileTree Char) : TenantCall → Site.Change
  | .provision request =>
      occasion.host.building tree request.storePath (s.admits occasion.host request).isOk
  | .confirmPurge tenantId confirmation =>
      (Site.rowOf TenantRecord.tenantId tenantId s.registry places).elim .stays fun row ↦
        if confirmation = tenantId ∧ row.1.status = .purging then
          occasion.host.removing tree row.1.storePath row.2
        else .stays
  | .suspend _ | .activate _ | .requestPurge _ => .stays

/-- A call builds at most where it has changed the directories. -/
def Follows (s t : TenantControlPlane) (places : List (Location Char)) (change : Site.Change)
    (files files' : List (Location Char)) : Prop :=
  (places ++ change.built).length = t.registry.length ∧
    Site.Move (s.sites places) files change (t.sites (places ++ change.built)) files'
theorem sites_of_effect {call : TenantCall} {reply : Option TenantRecord}
    (h : s.Effect call t reply) (hplaces : places.length = s.registry.length)
    (hprovision : ∀ request, call ≠ .provision request)
    (hconfirm : ∀ tenantId confirmation, call ≠ .confirmPurge tenantId confirmation) :
    t.registry.length = s.registry.length ∧ t.sites places = s.sites places := by
  cases h with
  | rejected => exact ⟨rfl, rfl⟩
  | provisioned host request => exact absurd rfl (hprovision request)
  | @changed _ _ before after r r' hfirst hchanged =>
      refine ⟨by simp [hfirst.split], Site.ofRows_replaced hplaces hfirst ?_⟩
      cases hchanged with
      | suspended _ hstatus => simp [hstatus]
      | activated hstatus => simp [hstatus]
      | requested _ hstatus => rcases hstatus with hstatus | hstatus <;> simp [hstatus]
      | purged => exact absurd rfl (hconfirm _ _)

theorem follows_of_effect {call : TenantCall} {reply : Option TenantRecord}
    {tree' : FileTree Char} (h : s.Effect call t reply)
    (hplaces : places.length = s.registry.length) (htree : tree' = tree)
    (hprovision : ∀ request, call ≠ .provision request)
    (hconfirm : ∀ tenantId confirmation, call ≠ .confirmPurge tenantId confirmation) :
    Follows s t places .stays tree.files tree'.files := by
  obtain ⟨hlength, hsites⟩ := sites_of_effect h hplaces hprovision hconfirm
  rw [Follows, Site.Change.built, List.append_nil, hsites, htree, hlength]
  exact ⟨hplaces, .stayed fun _ hf ↦ hf⟩

theorem follows_provision (request : ProvisionRequest)
    (hplaces : places.length = s.registry.length) :
    Follows s (s.provision codec occasion tree request).1.1 places
      (s.change places occasion tree (.provision request)) tree.files
      (s.provision codec occasion tree request).1.2.files := by
  have hsame : ∀ files : List (Location Char), (∀ f ∈ tree.files, f ∈ files) →
      Follows s s places .stays tree.files files := by
    intro files hfiles
    rw [Follows, Site.Change.built, List.append_nil]
    exact ⟨hplaces, .stayed hfiles⟩
  rw [provision, change, Host.building]
  cases hadmits : s.admits occasion.host request with
  | error e =>
      rw [if_neg (by simp [Except.isOk, Except.toBool])]
      exact hsame _ fun _ hf ↦ hf
  | ok _ =>
      cases hmade : occasion.host.createDirAll tree request.storePath with
      | none =>
          rw [if_neg (by simp [Host.places, hmade])]
          exact hsame _ fun _ hf ↦ hf
      | some made =>
          have hnew : occasion.host.places tree request.storePath =
              occasion.host.openStore made request.storePath := by
            rw [Host.places, hmade, Option.bind_some]
          rw [hnew]
          dsimp only
          cases hopened : occasion.host.openStore made request.storePath with
          | none =>
              rw [if_neg (by simp)]
              exact hsame _ fun f hf ↦ by
                rw [Host.files_createDirAll hmade]
                exact hf
          | some opened =>
              rw [hopened] at hnew
              rw [if_pos ⟨rfl, by simp⟩]
              refine ⟨by simp [Site.Change.built, hplaces], ?_⟩
              rw [sites, sites, Site.Change.built, Site.ofRows_append hplaces]
              exact Host.move_of_places _ hnew

variable (codec occasion) in
/-- A purge is confirmed for a tenant that is there and waits for it. -/
theorem confirmPurge_of_purging {tenantId : String} {before after : List TenantRecord}
    {r : TenantRecord}
    (hfirst : FirstWith TenantRecord.tenantId tenantId s.registry before r after)
    (hstatus : r.status = TenantStatus.purging) :
    ∃ out, s.confirmPurge codec occasion tenantId tenantId = .ok out := by
  obtain ⟨r', hr'⟩ : ∃ r', confirmPurgeRecord codec occasion tenantId r = .ok r' := by
    rw [confirmPurgeRecord, Except.require, if_pos hstatus]
    exact ⟨_, rfl⟩
  refine ⟨(⟨before ++ r' :: after⟩, r'), ?_⟩
  refine Iff.mpr Except.bind_ok_iff ⟨(), Iff.mpr Except.require_ok_iff rfl, ?_⟩
  rw [update, Except.map_ok_iff]
  refine ⟨(before ++ r' :: after, r'), Iff.mpr Registry.updateFirst_eq_ok ?_, rfl⟩
  exact ⟨before, r, after, r', hfirst.split, hfirst.before, by simp [hfirst.found],
    by rw [hr']; rfl, rfl⟩

/-- What a confirmed purge has found and left. -/
theorem purged_of_confirmPurge {tenantId confirmation : String}
    {out : TenantControlPlane × TenantRecord}
    (h : s.confirmPurge codec occasion tenantId confirmation = .ok out) :
    ∃ before r after, FirstWith TenantRecord.tenantId tenantId s.registry before r after ∧
      r.status = .purging ∧ confirmation = tenantId ∧ out.2.storePath = r.storePath ∧
      out.2.status = .purged ∧ out.1.registry = before ++ out.2 :: after := by
  obtain ⟨t, r'⟩ := out
  have heffect := effect_confirmPurge h
  generalize hcall : TenantCall.confirmPurge tenantId confirmation = call at heffect
  cases heffect with
  | provisioned => cases hcall
  | @changed _ _ before after r _ hfirst hchanged =>
      cases hchanged with
      | suspended => cases hcall
      | activated => cases hcall
      | requested => cases hcall
      | purged purgedAt receipt hstatus =>
          obtain ⟨rfl, rfl⟩ := TenantCall.confirmPurge.inj hcall
          exact ⟨before, r, after, ⟨hfirst.split, by rw [hfirst.found]; exact hfirst.before, rfl⟩,
            hstatus, rfl, rfl, rfl, rfl⟩

theorem follows_confirmPurge (tenantId confirmation : String)
    (hplaces : places.length = s.registry.length) :
    let out := s.apply codec occasion tree (.confirmPurge tenantId confirmation)
    Follows s out.1.1 places (s.change places occasion tree (.confirmPurge tenantId confirmation))
      tree.files out.1.2.files := by
  rw [apply, change]
  cases hresult : s.confirmPurge codec occasion tenantId confirmation with
  | error e =>
      have hstays : (Site.rowOf TenantRecord.tenantId tenantId s.registry places).elim
          Site.Change.stays (fun row ↦ if confirmation = tenantId ∧ row.1.status = .purging then
            occasion.host.removing tree row.1.storePath row.2 else .stays) = .stays := by
        cases hfound : Site.rowOf TenantRecord.tenantId tenantId s.registry places with
        | none => rfl
        | some row =>
            refine if_neg ?_
            rintro ⟨rfl, hstatus⟩
            obtain ⟨before, after, hfirst⟩ := Site.firstWith_of_rowOf hplaces hfound
            obtain ⟨out, hout⟩ := confirmPurge_of_purging codec occasion hfirst hstatus
            rw [hout] at hresult
            cases hresult
      rw [hstays, Follows, Site.Change.built, List.append_nil]
      exact ⟨hplaces, .stayed fun _ hf ↦ hf⟩
  | ok out =>
      obtain ⟨before, r, after, hfirst, hstatus, hconfirm, hpath, hpurged, hregistry⟩ :=
        purged_of_confirmPurge hresult
      have hdead : decide (out.2.status ≠ .purged) = false := by simp [hpurged]
      obtain ⟨own, hfound, hmove⟩ := Host.move_of_removal
        (fun r : TenantRecord ↦ decide (r.status ≠ .purged)) occasion.host tree r.storePath
        hplaces hfirst hdead
      rw [hfound, Option.elim_some, if_pos ⟨hconfirm, hstatus⟩, Follows, Host.built_removing,
        List.append_nil, sites, sites, hregistry]
      refine ⟨by rw [hplaces, hfirst.split, List.length_append, List.length_append]; rfl, ?_⟩
      dsimp only
      rw [hpath]
      exact hmove

theorem settled_tree (result : Except String (TenantControlPlane × TenantRecord)) :
    (s.settled tree result).1.2 = tree := by
  cases result <;> rfl

variable (codec occasion tree) in
/-- Every call is one of the moves. -/
theorem follows_apply (call : TenantCall) (hplaces : places.length = s.registry.length) :
    Follows s (s.apply codec occasion tree call).1.1 places (s.change places occasion tree call)
      tree.files (s.apply codec occasion tree call).1.2.files := by
  have heffect : s.Effect call (s.apply codec occasion tree call).1.1 _ := effect_apply tree call
  cases call with
  | provision request => exact follows_provision request hplaces
  | suspend tenantId => exact follows_of_effect heffect hplaces (settled_tree _) nofun nofun
  | activate tenantId => exact follows_of_effect heffect hplaces (settled_tree _) nofun nofun
  | requestPurge tenantId => exact follows_of_effect heffect hplaces (settled_tree _) nofun nofun
  | confirmPurge tenantId confirmation => exact follows_confirmPurge tenantId confirmation hplaces

end TenantControlPlane

namespace TeamControlPlane

variable {codec : ControlCodec} {occasion : Occasion} {s t : TeamControlPlane}
  {tree : FileTree Char} {places : List (Location Char)}

/-- The sites of the workspaces. -/
def sites (s : TeamControlPlane) (places : List (Location Char)) : List Site :=
  Site.ofRows (fun w : WorkspaceRecord ↦ w.deletedAt.isNone) s.registry places

/-- What a call does to the directories. -/
def change (s : TeamControlPlane) (places : List (Location Char)) (occasion : Occasion)
    (tree : FileTree Char) : TeamCall → Site.Change
  | .createWorkspace request =>
      occasion.host.building tree request.storePath (s.admits occasion.host request).isOk
  | .confirmDelete workspaceId actor confirmation =>
      (Site.rowOf WorkspaceRecord.workspaceId workspaceId s.registry places).elim .stays fun row ↦
        if confirmation = workspaceId ∧ (row.1.authorize actor .deleteWorkspace).isOk = true ∧
            row.1.status = .deleting then
          occasion.host.removing tree row.1.storePath row.2
        else .stays
  | .invite _ _ _ _ _ | .acceptInvitation _ _ | .revokeInvitation _ _ | .removeMember _ _ _
  | .leave _ _ | .requestDelete _ _ => .stays

/-- A call builds at most where it has changed the directories. -/
def Follows (s t : TeamControlPlane) (places : List (Location Char)) (change : Site.Change)
    (files files' : List (Location Char)) : Prop :=
  (places ++ change.built).length = t.registry.length ∧
    Site.Move (s.sites places) files change (t.sites (places ++ change.built)) files'

theorem sites_of_effect {call : TeamCall} {reply : Option TeamReply}
    (h : TeamEffect codec occasion s call t reply) (hplaces : places.length = s.registry.length)
    (hcreate : ∀ request, call ≠ .createWorkspace request)
    (hconfirm : ∀ workspaceId actor confirmation,
      call ≠ .confirmDelete workspaceId actor confirmation) :
    t.registry.length = s.registry.length ∧ t.sites places = s.sites places := by
  have hrow : ∀ {id : String} {before after : List WorkspaceRecord} {w w' : WorkspaceRecord},
      FirstWith WorkspaceRecord.workspaceId id s.registry before w after →
      w'.deletedAt = w.deletedAt → (before ++ w' :: after).length = s.registry.length ∧
        Site.ofRows (fun w : WorkspaceRecord ↦ w.deletedAt.isNone) (before ++ w' :: after) places =
          s.sites places := by
    intro id before after w w' hfirst hdeleted
    exact ⟨by simp [hfirst.split], Site.ofRows_replaced hplaces hfirst (by rw [hdeleted])⟩
  cases h with
  | rejected => exact ⟨rfl, rfl⟩
  | created request => exact absurd rfl (hcreate request)
  | invited => exact ⟨rfl, rfl⟩
  | expired => exact ⟨rfl, rfl⟩
  | stranded => exact ⟨rfl, rfl⟩
  | joined _ _ _ _ hfirst => exact hrow hfirst rfl
  | revoked => exact ⟨rfl, rfl⟩
  | closed _ _ hfirst => exact hrow hfirst rfl
  | marked hfirst => exact hrow hfirst rfl
  | destroyed => exact absurd rfl (hconfirm _ _ _)

theorem follows_of_effect {call : TeamCall} {reply : Option TeamReply} {tree' : FileTree Char}
    (h : TeamEffect codec occasion s call t reply) (hplaces : places.length = s.registry.length)
    (htree : tree' = tree) (hcreate : ∀ request, call ≠ .createWorkspace request)
    (hconfirm : ∀ workspaceId actor confirmation,
      call ≠ .confirmDelete workspaceId actor confirmation) :
    Follows s t places .stays tree.files tree'.files := by
  obtain ⟨hlength, hsites⟩ := sites_of_effect h hplaces hcreate hconfirm
  rw [Follows, Site.Change.built, List.append_nil, hsites, htree, hlength]
  exact ⟨hplaces, .stayed fun _ hf ↦ hf⟩

theorem settled_tree {β : Type} (reply : β → TeamReply)
    (result : Except String (TeamControlPlane × β)) :
    (s.settled tree reply result).1.2 = tree := by
  cases result <;> rfl

theorem follows_createWorkspace (request : CreateWorkspaceRequest)
    (hplaces : places.length = s.registry.length) :
    Follows s (s.createWorkspace codec occasion tree request).1.1 places
      (s.change places occasion tree (.createWorkspace request)) tree.files
      (s.createWorkspace codec occasion tree request).1.2.files := by
  have hsame : ∀ files : List (Location Char), (∀ f ∈ tree.files, f ∈ files) →
      Follows s s places .stays tree.files files := by
    intro files hfiles
    rw [Follows, Site.Change.built, List.append_nil]
    exact ⟨hplaces, .stayed hfiles⟩
  rw [createWorkspace, change, Host.building]
  cases hadmits : s.admits occasion.host request with
  | error e =>
      rw [if_neg (by simp [Except.isOk, Except.toBool])]
      exact hsame _ fun _ hf ↦ hf
  | ok _ =>
      cases hmade : occasion.host.createDirAll tree request.storePath with
      | none =>
          rw [if_neg (by simp [Host.places, hmade])]
          exact hsame _ fun _ hf ↦ hf
      | some made =>
          have hnew : occasion.host.places tree request.storePath =
              occasion.host.openStore made request.storePath := by
            rw [Host.places, hmade, Option.bind_some]
          rw [hnew]
          dsimp only
          cases hopened : occasion.host.openStore made request.storePath with
          | none =>
              rw [if_neg (by simp)]
              exact hsame _ fun f hf ↦ by
                rw [Host.files_createDirAll hmade]
                exact hf
          | some opened =>
              rw [hopened] at hnew
              rw [if_pos ⟨rfl, by simp⟩]
              refine ⟨by simp [Site.Change.built, hplaces], ?_⟩
              rw [sites, sites, Site.Change.built, Site.ofRows_append hplaces]
              exact Host.move_of_places _ hnew

variable (codec occasion) in
/-- A deletion is confirmed by its owner for a workspace that is there and waits for it. -/
theorem confirmDelete_of_deleting {workspaceId actor : String}
    {before after : List WorkspaceRecord} {w : WorkspaceRecord}
    (hfirst : FirstWith WorkspaceRecord.workspaceId workspaceId s.registry before w after)
    (howner : (w.authorize actor .deleteWorkspace).isOk = true)
    (hstatus : w.status = WorkspaceStatus.deleting) :
    ∃ out, s.confirmDelete codec occasion workspaceId actor workspaceId = .ok out := by
  obtain ⟨role, hrole⟩ : ∃ role, w.authorize actor .deleteWorkspace = .ok role := by
    cases hcase : w.authorize actor .deleteWorkspace with
    | error e => simp [hcase, Except.isOk, Except.toBool] at howner
    | ok role => exact ⟨role, rfl⟩
  let deleted : WorkspaceRecord :=
    { w with
      status := .deleted
      deletedAt := some (codec.rfc3339 occasion.now)
      purgeReceiptDigest :=
        some (receiptDigest codec "cortana.team.workspace-delete.v1" workspaceId
          (codec.rfc3339 occasion.now) w.storePath) }
  refine ⟨({ s with registry := before ++ deleted :: after }, deleted),
    Iff.mpr Except.bind_ok_iff ⟨(), Iff.mpr Except.require_ok_iff rfl, Iff.mpr update_eq_ok
      ⟨before, w, after, deleted, hfirst.split, hfirst.before, hfirst.found, ?_, rfl⟩⟩⟩
  exact Iff.mpr Except.bind_ok_iff ⟨role, hrole,
    Iff.mpr Except.bind_ok_iff ⟨(), Iff.mpr Except.require_ok_iff hstatus, rfl⟩⟩

/-- What a confirmed deletion has found and left. -/
theorem deleted_of_confirmDelete {workspaceId actor confirmation : String}
    {out : TeamControlPlane × WorkspaceRecord}
    (h : s.confirmDelete codec occasion workspaceId actor confirmation = .ok out) :
    ∃ before w after, FirstWith WorkspaceRecord.workspaceId workspaceId s.registry before w after ∧
      (w.authorize actor .deleteWorkspace).isOk = true ∧ w.status = .deleting ∧
      confirmation = workspaceId ∧ out.2.storePath = w.storePath ∧
      out.2.deletedAt.isNone = false ∧ out.1.registry = before ++ out.2 :: after := by
  obtain ⟨t, w'⟩ := out
  obtain ⟨_, hconfirm, h⟩ := Iff.mp Except.bind_ok_iff h
  obtain ⟨before, w, after, w₁, hlist, hbefore, hfound, hchange, rfl⟩ := Iff.mp update_eq_ok h
  obtain ⟨role, hrole, hchange⟩ := Iff.mp Except.bind_ok_iff hchange
  obtain ⟨_, hstatus, hchange⟩ := Iff.mp Except.bind_ok_iff hchange
  obtain ⟨rfl, rfl⟩ := Prod.mk.inj (Iff.mp Except.pure_ok_iff hchange)
  exact ⟨before, w, after, ⟨hlist, hbefore, hfound⟩, by rw [hrole]; rfl,
    Iff.mp Except.require_ok_iff hstatus, Iff.mp Except.require_ok_iff hconfirm, rfl, rfl, rfl⟩

theorem follows_confirmDelete (workspaceId actor confirmation : String)
    (hplaces : places.length = s.registry.length) :
    let out := s.apply codec occasion tree (.confirmDelete workspaceId actor confirmation)
    Follows s out.1.1 places
      (s.change places occasion tree (.confirmDelete workspaceId actor confirmation))
      tree.files out.1.2.files := by
  rw [apply, change]
  cases hresult : s.confirmDelete codec occasion workspaceId actor confirmation with
  | error e =>
      have hstays : (Site.rowOf WorkspaceRecord.workspaceId workspaceId s.registry places).elim
          Site.Change.stays (fun row ↦
            if confirmation = workspaceId ∧
                (row.1.authorize actor .deleteWorkspace).isOk = true ∧
                row.1.status = .deleting then
              occasion.host.removing tree row.1.storePath row.2 else .stays) = .stays := by
        cases hfound : Site.rowOf WorkspaceRecord.workspaceId workspaceId s.registry places with
        | none => rfl
        | some row =>
            refine if_neg ?_
            rintro ⟨rfl, howner, hstatus⟩
            obtain ⟨before, after, hfirst⟩ := Site.firstWith_of_rowOf hplaces hfound
            obtain ⟨out, hout⟩ := confirmDelete_of_deleting codec occasion hfirst howner
              hstatus
            rw [hout] at hresult
            cases hresult
      rw [hstays, Follows, Site.Change.built, List.append_nil]
      exact ⟨hplaces, .stayed fun _ hf ↦ hf⟩
  | ok out =>
      obtain ⟨before, w, after, hfirst, howner, hstatus, hconfirm, hpath, hdeleted, hregistry⟩ :=
        deleted_of_confirmDelete hresult
      obtain ⟨own, hfound, hmove⟩ := Host.move_of_removal
        (fun w : WorkspaceRecord ↦ w.deletedAt.isNone) occasion.host tree w.storePath
        hplaces hfirst hdeleted
      rw [hfound, Option.elim_some, if_pos ⟨hconfirm, howner, hstatus⟩, Follows,
        Host.built_removing, List.append_nil, sites, sites, hregistry]
      refine ⟨by rw [hplaces, hfirst.split, List.length_append, List.length_append]; rfl, ?_⟩
      dsimp only
      rw [hpath]
      exact hmove

variable (codec occasion tree) in
/-- Every call is one of the moves. -/
theorem follows_apply (call : TeamCall) (hplaces : places.length = s.registry.length) :
    Follows s (s.apply codec occasion tree call).1.1 places (s.change places occasion tree call)
      tree.files (s.apply codec occasion tree call).1.2.files := by
  have heffect : TeamEffect codec occasion s call (s.apply codec occasion tree call).1.1 _ :=
    effect_apply tree call
  cases call with
  | createWorkspace request => exact follows_createWorkspace request hplaces
  | invite => exact follows_of_effect heffect hplaces (settled_tree _ _) nofun nofun
  | acceptInvitation => exact follows_of_effect heffect hplaces rfl nofun nofun
  | revokeInvitation => exact follows_of_effect heffect hplaces (settled_tree _ _) nofun nofun
  | removeMember => exact follows_of_effect heffect hplaces (settled_tree _ _) nofun nofun
  | leave => exact follows_of_effect heffect hplaces (settled_tree _ _) nofun nofun
  | requestDelete => exact follows_of_effect heffect hplaces (settled_tree _ _) nofun nofun
  | confirmDelete workspaceId actor confirmation =>
      exact follows_confirmDelete workspaceId actor confirmation hplaces

end TeamControlPlane

/-! ## Deployments -/

/-- Both control planes, where their registries are and where each data plane was built, and
the disk. -/
structure Deployment where
  tenantFile : Location Char
  teamFile : Location Char
  tenants : TenantControlPlane
  team : TeamControlPlane
  tenantPlaces : List (Location Char)
  teamPlaces : List (Location Char)
  tree : FileTree Char

/-- A call on one of the control planes, or a file that is written by a data
plane or another program. -/
inductive DeploymentAction where
  | tenant (call : TenantCall) (occasion : Occasion)
  | team (call : TeamCall) (occasion : Occasion)
  | written (file : Location Char)

namespace Deployment

variable (codec : ControlCodec)

/-- The control planes are opened on new registries. -/
def opened (tenantFile teamFile : Location Char) (tree : FileTree Char) : Deployment where
  tenantFile := tenantFile
  teamFile := teamFile
  tenants := ⟨[]⟩
  team := ⟨[], []⟩
  tenantPlaces := []
  teamPlaces := []
  tree := { tree with files := tree.files ++ [tenantFile, teamFile] }

/-- What an action does to the directories. -/
def change (d : Deployment) : DeploymentAction → Site.Change
  | .tenant call occasion =>
      if occasion.host.registryAt = d.tenantFile then
        d.tenants.change d.tenantPlaces occasion d.tree call
      else .stays
  | .team call occasion =>
      if occasion.host.registryAt = d.teamFile then
        d.team.change d.teamPlaces occasion d.tree call
      else .stays
  | .written _ => .stays

/-- A process that finds another registry makes no call on this deployment. -/
def next (d : Deployment) (action : DeploymentAction) : Deployment :=
  match action with
  | .tenant call occasion =>
      if occasion.host.registryAt = d.tenantFile then
        let out := (d.tenants.apply codec occasion d.tree call).1
        { d with
          tenants := out.1
          tenantPlaces := d.tenantPlaces ++ (d.change action).built
          tree := out.2 }
      else d
  | .team call occasion =>
      if occasion.host.registryAt = d.teamFile then
        let out := (d.team.apply codec occasion d.tree call).1
        { d with
          team := out.1
          teamPlaces := d.teamPlaces ++ (d.change action).built
          tree := out.2 }
      else d
  | .written file => { d with tree := { d.tree with files := d.tree.files ++ [file] } }

/-- The tenants' data planes and the workspaces'. -/
def sites (d : Deployment) : List Site :=
  d.tenants.sites d.tenantPlaces ++ d.team.sites d.teamPlaces

/-- The registries, which hold the audit events too. -/
def control (d : Deployment) : List (Location Char) := [d.tenantFile, d.teamFile]

/-- A data plane is built only where it overlaps no other one, of either control plane, and
holds neither registry; and what a confirmed purge or deletion finds under the recorded path
is where the data plane was built, or a directory that is harmless to remove. -/
def Clear (d : Deployment) (action : DeploymentAction) : Prop :=
  (d.change action).Clear d.control d.sites d.tree.files

/-- No two data planes overlap, each that was not purged is there, and so are both
registries. -/
def Isolated (d : Deployment) : Prop := Site.Kept d.control d.sites d.tree.files

/-- An action removes no file of a data plane that lives on, and no registry. -/
def Spares (d : Deployment) (action : DeploymentAction) : Prop :=
  Site.Spares d.control (d.next codec action).sites d.tree.files (d.next codec action).tree.files

/-- Every row of the registries has a place. -/
structure Placed (d : Deployment) : Prop where
  tenants : d.tenantPlaces.length = d.tenants.registry.length
  team : d.teamPlaces.length = d.team.registry.length

variable {codec} {d : Deployment}

theorem placed_opened (tenantFile teamFile : Location Char) (tree : FileTree Char) :
    Placed (opened tenantFile teamFile tree) :=
  ⟨rfl, rfl⟩

variable (codec) in
/-- Every action is a move among the sites, and what it builds has a place. -/
theorem move_next (h : d.Placed) (action : DeploymentAction) :
    (d.next codec action).Placed ∧
      Site.Move d.sites d.tree.files (d.change action) (d.next codec action).sites
        (d.next codec action).tree.files := by
  cases action with
  | tenant call occasion =>
      rw [next, change]
      split
      · obtain ⟨hlength, hmove⟩ := TenantControlPlane.follows_apply codec occasion d.tree call
          h.tenants
        exact ⟨⟨hlength, h.team⟩, hmove.within [] (d.team.sites d.teamPlaces)⟩
      · exact ⟨h, .stayed fun _ hf ↦ hf⟩
  | team call occasion =>
      rw [next, change]
      split
      · obtain ⟨hlength, hmove⟩ := TeamControlPlane.follows_apply codec occasion d.tree call
          h.team
        have hall := hmove.within (d.tenants.sites d.tenantPlaces) []
        rw [List.append_nil, List.append_nil] at hall
        exact ⟨⟨h.tenants, hlength⟩, hall⟩
      · exact ⟨h, .stayed fun _ hf ↦ hf⟩
  | written file => exact ⟨⟨h.tenants, h.team⟩, .stayed fun f hf ↦ List.mem_append_left _ hf⟩

theorem control_next (action : DeploymentAction) : (d.next codec action).control = d.control := by
  cases action with
  | tenant call occasion =>
      rw [next]
      split <;> rfl
  | team call occasion =>
      rw [next]
      split <;> rfl
  | written file => rfl

variable (codec) in
theorem isolated_next (hplaced : d.Placed) (h : d.Isolated) (action : DeploymentAction) :
    (d.next codec action).Isolated ∧ d.Spares codec action ↔ d.Clear action := by
  rw [Isolated, control_next]
  exact (move_next codec hplaced action).2.kept_iff h

theorem isolated_opened (tenantFile teamFile : Location Char) (tree : FileTree Char) :
    Isolated (opened tenantFile teamFile tree) :=
  ⟨.nil, nofun, nofun, fun _ hc ↦ List.mem_append_right _ hc⟩

/-- The data planes are isolated in every state a sequence of actions leads through, and
each of the actions spares them. -/
def PlanesIsolated (codec : ControlCodec) (start : Deployment) (actions : List DeploymentAction) :
    Prop :=
  (∀ n, Isolated ((actions.take n).foldl (next codec) start)) ∧
    Along (next codec) (Spares codec) start actions

end Deployment

/-- A tenant inside the directory of another one, which is purged. -/
def DeploymentAction.sampleNested : List DeploymentAction :=
  let host : Host := ⟨[], "/control/tenants"⟩
  [ .tenant (.provision ⟨"outer", "eu", "cloud", "/data/a", 10, 10, 90⟩) ⟨0, "t1", host⟩,
    .tenant (.provision ⟨"inner", "eu", "cloud", "/data/a/b", 10, 10, 90⟩) ⟨1, "t2", host⟩,
    .tenant (.requestPurge "t1") ⟨2, "u1", host⟩,
    .tenant (.confirmPurge "t1" "t1") ⟨3, "u2", host⟩ ]

end Cortana
