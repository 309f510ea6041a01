import Cortana.Code.Parser

/-!
# Attribution of calls

The parser gives every call to the last symbol that starts no later than the
line of the call.  A declaration that is indented starts after its own line
does, so what it calls is given to the symbol before it.
-/

namespace Cortana

open ByteText

namespace CodeParser

/-! ## Lines -/

/-- A line is one of the pieces of the text, and its offset is what comes
before it. -/
theorem mem_linesOf {content : List Char} {line : Line} (h : line ∈ linesOf content) :
    ∃ before after, splitInclusive '\n' content = before ++ line.text :: after ∧
      line.index = before.length ∧ line.offset = byteLen before.flatten := by
  have hoffsets : ∀ (parts : List (List Char)) (offset start : ℕ) {line : Line},
      line ∈ (((withOffsets offset parts).zipIdx start).map fun entry ↦
        (⟨entry.2, entry.1.1, entry.1.2⟩ : Line)) →
      ∃ before after, parts = before ++ line.text :: after ∧ line.index = start + before.length ∧
        line.offset = offset + byteLen before.flatten := by
    intro parts
    induction parts with
    | nil => intro offset start line hline; cases hline
    | cons part rest ih =>
        intro offset start line hline
        rw [withOffsets, List.zipIdx_cons, List.map_cons] at hline
        rcases List.mem_cons.mp hline with rfl | hline
        · exact ⟨[], rest, rfl, rfl, rfl⟩
        · obtain ⟨before, after, rfl, hindex, hoffset⟩ := ih _ _ hline
          refine ⟨part :: before, after, rfl, ?_, ?_⟩
          · rw [hindex, List.length_cons]
            omega
          · rw [hoffset, List.flatten_cons, byteLen_append]
            omega
  obtain ⟨before, after, hparts, hindex, hoffset⟩ := hoffsets _ _ _ h
  exact ⟨before, after, hparts, by rw [hindex, Nat.zero_add], by rw [hoffset, Nat.zero_add]⟩

theorem ne_nil_of_mem_splitInclusive {sep : Char} {s part : List Char}
    (h : part ∈ splitInclusive sep s) : part ≠ [] := by
  induction s generalizing part with
  | nil => cases h
  | cons c s ih =>
      rw [splitInclusive] at h
      split_ifs at h with hc
      · rcases List.mem_cons.mp h with rfl | h
        · exact List.cons_ne_nil _ _
        · exact ih h
      · split at h
        next hparts =>
          rw [List.mem_singleton.mp h]
          exact List.cons_ne_nil _ _
        next first rest hparts =>
          rcases List.mem_cons.mp h with rfl | h
          · exact List.cons_ne_nil _ _
          · exact ih (hparts ▸ List.mem_cons_of_mem first h)

/-- What is between two lines. -/
theorem linesOf_lt {content : List Char} {l m : Line} (hl : l ∈ linesOf content)
    (hm : m ∈ linesOf content) (hlt : l.index < m.index) :
    l.offset + byteLen l.text ≤ m.offset ∧ l.offset < m.offset := by
  obtain ⟨before, after, hparts, hindex, hoffset⟩ := mem_linesOf hl
  obtain ⟨before', after', hparts', hindex', hoffset'⟩ := mem_linesOf hm
  have htext : l.text ≠ [] := ne_nil_of_mem_splitInclusive (by
    rw [hparts]
    exact List.mem_append_right before List.mem_cons_self)
  have hpos := byteLen_pos htext
  have hthere : before ++ [l.text] <+: splitInclusive '\n' content := ⟨after, by
    rw [hparts, List.append_assoc]
    rfl⟩
  have hpre : before ++ [l.text] <+: before' := by
    refine List.prefix_of_prefix_length_le hthere ⟨_, hparts'.symm⟩ ?_
    rw [List.length_append, List.length_singleton]
    omega
  obtain ⟨rest, rfl⟩ := hpre
  rw [hoffset', hoffset, List.flatten_append, List.flatten_append, List.flatten_singleton,
    byteLen_append, byteLen_append]
  omega

theorem linesOf_inj {content : List Char} {l m : Line} (hl : l ∈ linesOf content)
    (hm : m ∈ linesOf content) (h : l.index = m.index) : l = m := by
  obtain ⟨before, after, hparts, hindex, hoffset⟩ := mem_linesOf hl
  obtain ⟨before', after', hparts', hindex', hoffset'⟩ := mem_linesOf hm
  obtain ⟨rfl, hrest⟩ := List.append_inj (hparts.symm.trans hparts') (by omega)
  cases l
  cases m
  obtain ⟨rfl, -⟩ := List.cons.inj hrest
  simp_all

theorem pairwise_linesOf (content : List Char) :
    (linesOf content).Pairwise fun l m ↦ l.index < m.index := by
  have hindices : (linesOf content).map Line.index =
      List.range' 0 (withOffsets 0 (splitInclusive '\n' content)).length := by
    rw [linesOf, List.map_map, ← List.zipIdx_map_snd]
    rfl
  rw [← List.pairwise_map (f := Line.index) (R := (· < ·)), hindices]
  exact List.pairwise_lt_range'

/-- The parts of a line. -/
theorem Line.parts (line : Line) : ∃ blank newline, line.text = blank ++ line.trimmed ++ newline ∧
    line.bare = blank ++ line.trimmed ∧ byteLen blank = line.indent := by
  obtain ⟨newline, hnewline⟩ : line.bare <+: line.text := List.rdropWhile_prefix _ _
  have hbare : line.bare = line.bare.takeWhile isWhitespace ++ line.trimmed :=
    List.takeWhile_append_dropWhile.symm
  refine ⟨line.bare.takeWhile isWhitespace, newline, ?_, hbare, ?_⟩
  · rw [← hbare, hnewline]
  · have hlength := congrArg byteLen hbare
    rw [byteLen_append] at hlength
    rw [Line.indent]
    omega

/-- Where a declaration of a line starts and ends. -/
theorem Line.slice_span {content : List Char} {line : Line} (h : line ∈ linesOf content) :
    slice content line.span.startByte line.span.endByte = some line.trimmed := by
  obtain ⟨before, after, hparts, -, hoffset⟩ := mem_linesOf h
  obtain ⟨blank, newline, htext, hbare, hindent⟩ := line.parts
  refine Iff.mpr slice_eq_some_iff
    ⟨before.flatten ++ blank, newline ++ after.flatten, ?_, ?_, ?_⟩
  · rw [← flatten_splitInclusive '\n' content, hparts, List.flatten_append, List.flatten_cons,
      htext]
    simp only [List.append_assoc]
  · rw [byteLen_append, hindent, ← hoffset]
    rfl
  · change line.offset + line.indent + byteLen line.trimmed = line.offset + byteLen line.bare
    rw [hbare, byteLen_append, hindent]
    omega

theorem Line.indent_le (line : Line) : line.indent ≤ byteLen line.text := by
  obtain ⟨blank, newline, htext, -, hindent⟩ := line.parts
  rw [htext, byteLen_append, byteLen_append, hindent]
  omega

/-- A declaration starts no later than a line if it stands on that line or on
an earlier one, unless it is indented on the line itself. -/
theorem span_le_iff {content : List Char} {l m : Line} (hl : l ∈ linesOf content)
    (hm : m ∈ linesOf content) :
    m.span.startByte ≤ l.offset ↔
      m.span.startLine ≤ l.index + 1 ∧ (m.index = l.index → m.indent = 0) := by
  change m.offset + m.indent ≤ l.offset ↔ m.index + 1 ≤ l.index + 1 ∧ _
  have hindent := m.indent_le
  rcases Nat.lt_trichotomy m.index l.index with hlt | heq | hgt
  · have hbetween := linesOf_lt hm hl hlt
    exact iff_of_true (by omega) ⟨by omega, by omega⟩
  · obtain rfl := linesOf_inj hm hl heq
    constructor
    · exact fun h ↦ ⟨le_rfl, fun _ ↦ by omega⟩
    · rintro ⟨-, h⟩
      have hzero := h rfl
      omega
  · have hbetween := linesOf_lt hl hm hgt
    exact iff_of_false (by omega) (by omega)

/-! ## What the first pass records -/

/-- A symbol that the lines declare. -/
structure Entry where
  line : Line
  name : String
  qualifiedName : String
  container : Option String

/-- What a line declares inside some containers, and the containers after it. -/
def Source.outlineLine (source : Source) (containers : List (ℕ × String)) (line : Line) :
    Option Entry × List (ℕ × String) :=
  let containers := containers.dropWhile fun container ↦ line.indent ≤ container.1
  if isDocComment line.trimmed source.language then (none, containers)
  else
    match declaration source.unicode line.trimmed source.language with
    | some d =>
        let container := containers.head?.map Prod.snd
        (some ⟨line, d.name, qualify container d.name, container⟩,
          if d.kind.isContainer then (line.indent, qualify container d.name) :: containers
          else containers)
    | none =>
        ((aliasDeclaration source.unicode line.trimmed source.language).map fun names ↦
          ⟨line, names.2, names.2, none⟩, containers)

/-- What lines declare, nested by their indentation. -/
def Source.outline (source : Source) : List (ℕ × String) → List Line → List Entry
  | _, [] => []
  | containers, line :: rest =>
      (source.outlineLine containers line).1.toList ++
        source.outline (source.outlineLine containers line).2 rest

/-- What an outline says about a symbol. -/
structure Key where
  name : String
  qualifiedName : String
  container : Option String
  span : SourceSpan

def Entry.key (entry : Entry) : Key :=
  ⟨entry.name, entry.qualifiedName, entry.container, entry.line.span⟩

def CodeSymbol.key (symbol : CodeSymbol) : Key :=
  ⟨symbol.name, symbol.qualifiedName, symbol.container, symbol.span⟩

/-- All symbols are under their names, and their ids are made of their spans. -/
structure Registered (source : Source) (scan : Scan) : Prop where
  declarations : scan.declarations = scan.symbols.map fun symbol ↦ (symbol.name, symbol.id)
  ids : ∀ symbol ∈ scan.symbols, ∃ qualified kind,
    symbol.id = source.symbolId qualified kind symbol.span

/-- A step of the first pass that goes on. -/
structure Records (source : Source) (scan scan' : Scan) (entries : List Entry)
    (containers : List (ℕ × String)) : Prop where
  status : scan'.status = scan.status
  containers : scan'.containers = containers
  symbols : scan'.symbols.map CodeSymbol.key =
    scan.symbols.map CodeSymbol.key ++ entries.map Entry.key
  registered : Registered source scan → Registered source scan'

theorem Registered.declare {source : Source} {scan : Scan} (h : Registered source scan)
    {symbol : CodeSymbol} {qualified : String} {kind : SymbolKind}
    (hid : symbol.id = source.symbolId qualified kind symbol.span) :
    Registered source (scan.declare symbol) := by
  constructor
  · change scan.declarations ++ _ = (scan.symbols ++ [symbol]).map _
    rw [h.declarations, List.map_append]
    rfl
  · intro other hother
    rcases List.mem_append.mp hother with hother | hother
    · exact h.ids other hother
    · rw [List.mem_singleton.mp hother]
      exact ⟨qualified, kind, hid⟩

/-- What one round of the first pass does. -/
theorem scanLine_ok {source : Source} {clock : Clock} {maxSymbols : ℕ} {scan scan' : Scan}
    {line : Line} (h : source.scanLine clock maxSymbols scan line = .ok scan') :
    Records source scan scan' (source.outlineLine scan.containers line).1.toList
      (source.outlineLine scan.containers line).2 := by
  rw [Source.scanLine] at h
  split_ifs at h with hcancelled helapsed
  simp only at h
  rw [Source.outlineLine]
  simp only
  split at h
  next hdoc =>
    rw [if_pos hdoc]
    obtain rfl := Except.ok.inj h
    exact ⟨rfl, rfl, (List.append_nil _).symm, fun hr ↦ ⟨hr.declarations, hr.ids⟩⟩
  next hcode =>
    rw [if_neg hcode]
    have hnoted : Registered source scan → Registered source (source.note { scan with
        containers := scan.containers.dropWhile fun container ↦ line.indent ≤ container.1 } line) :=
      fun hr ↦ ⟨hr.declarations, hr.ids⟩
    cases hdeclaration : declaration source.unicode line.trimmed source.language with
    | some d =>
        rw [hdeclaration] at h
        simp only at h
        split at h
        next => cases h
        next =>
          obtain rfl := Except.ok.inj h
          refine ⟨rfl, rfl, List.map_append, fun hr ↦ ?_⟩
          exact ⟨((hnoted hr).declare rfl).declarations, ((hnoted hr).declare rfl).ids⟩
    | none =>
        rw [hdeclaration] at h
        simp only at h
        cases halias : aliasDeclaration source.unicode line.trimmed source.language with
        | some names =>
            rw [halias] at h
            simp only at h
            split at h
            next => cases h
            next =>
              obtain rfl := Except.ok.inj h
              exact ⟨rfl, rfl, List.map_append, fun hr ↦ (hnoted hr).declare rfl⟩
        | none =>
            rw [halias] at h
            obtain rfl := Except.ok.inj h
            exact ⟨rfl, rfl, (List.append_nil _).symm, fun hr ↦ ⟨hr.declarations, hr.ids⟩⟩

/-- A pass that ends early is not complete. -/
theorem scanLine_error {source : Source} {clock : Clock} {maxSymbols : ℕ} {scan scan' : Scan}
    {line : Line} (h : source.scanLine clock maxSymbols scan line = .error scan') :
    scan'.status ≠ .complete := by
  rw [Source.scanLine] at h
  split at h
  next =>
    obtain rfl := Except.error.inj h
    exact ParseStatus.noConfusion
  next =>
    split at h
    next =>
      obtain rfl := Except.error.inj h
      exact ParseStatus.noConfusion
    next =>
      simp only at h
      split at h
      next => cases h
      next =>
        split at h
        next =>
          split at h
          next =>
            obtain rfl := Except.error.inj h
            exact ParseStatus.noConfusion
          next => cases h
        next =>
          split at h
          next =>
            split at h
            next =>
              obtain rfl := Except.error.inj h
              exact ParseStatus.noConfusion
            next => cases h
          next => cases h

/-- The whole first pass. -/
theorem foldlM_scanLine_ok {source : Source} {clock : Clock} {maxSymbols : ℕ} {lines : List Line}
    {scan scan' : Scan}
    (h : lines.foldlM (source.scanLine clock maxSymbols) scan = .ok scan') :
    scan'.status = scan.status ∧
      scan'.symbols.map CodeSymbol.key = scan.symbols.map CodeSymbol.key ++
        (source.outline scan.containers lines).map Entry.key ∧
      (Registered source scan → Registered source scan') := by
  induction lines generalizing scan with
  | nil =>
      obtain rfl := Iff.mp List.foldlM_nil_ok_iff h
      exact ⟨rfl, (List.append_nil _).symm, id⟩
  | cons line rest ih =>
      obtain ⟨middle, hline, hrest⟩ := Iff.mp List.foldlM_cons_ok_iff h
      have hrecords := scanLine_ok hline
      obtain ⟨hstatus, hsymbols, hregistered⟩ := ih hrest
      refine ⟨hstatus.trans hrecords.status, ?_, hregistered ∘ hrecords.registered⟩
      rw [hsymbols, hrecords.symbols, hrecords.containers, Source.outline, List.map_append,
        List.append_assoc]

theorem foldlM_scanLine_error {source : Source} {clock : Clock} {maxSymbols : ℕ}
    {lines : List Line} {scan scan' : Scan}
    (h : lines.foldlM (source.scanLine clock maxSymbols) scan = .error scan') :
    scan'.status ≠ .complete := by
  induction lines generalizing scan with
  | nil => cases h
  | cons line rest ih =>
      rw [List.foldlM_cons] at h
      cases hline : source.scanLine clock maxSymbols scan line with
      | error stopped =>
          rw [hline] at h
          obtain rfl := Except.error.inj h
          exact scanLine_error hline
      | ok middle =>
          rw [hline] at h
          exact ih h

/-- The entries of an outline stand on its lines, in order. -/
theorem outline_sublist (source : Source) (containers : List (ℕ × String)) (lines : List Line) :
    ((source.outline containers lines).map Entry.line).Sublist lines := by
  induction lines generalizing containers with
  | nil => exact .refl _
  | cons line rest ih =>
      have hline : ∀ entry ∈ (source.outlineLine containers line).1, entry.line = line := by
        intro entry hentry
        rw [Source.outlineLine] at hentry
        simp only at hentry
        split at hentry
        next => cases hentry
        next =>
          split at hentry
          next =>
            obtain rfl := Option.some.inj hentry
            rfl
          next =>
            obtain ⟨names, -, rfl⟩ := Option.map_eq_some_iff.mp hentry
            rfl
      rw [Source.outline, List.map_append]
      cases hfirst : (source.outlineLine containers line).1 with
      | none => exact (ih _).trans (List.sublist_cons_self line rest)
      | some entry =>
          rw [← hline entry hfirst]
          exact (ih _).cons_cons entry.line

/-! ## What the later passes emit -/

/-- A loop that adds relations: all that must be there if it ends, and none but
those that may. -/
structure Emits (must may : CodeRelation → Prop) (emission : Emission)
    (result : Except Emission Emission) : Prop where
  may : ∀ r ∈ (settle result).relations, r ∈ emission.relations ∨ may r
  keeps : emission.relations ⊆ (settle result).relations
  complete : (settle result).status = .complete → emission.status = .complete ∧
    ∃ emission', result = .ok emission'
  must : ∀ emission', result = .ok emission' → ∀ r, must r → r ∈ emission'.relations

/-- Weaker promises. -/
theorem Emits.imp {must must' may may' : CodeRelation → Prop} {emission : Emission}
    {result : Except Emission Emission} (h : Emits must may emission result)
    (hmust : ∀ r, must' r → must r) (hmay : ∀ r, may r → may' r) :
    Emits must' may' emission result :=
  ⟨fun r hr ↦ (h.may r hr).imp_right (hmay r), h.keeps, h.complete,
    fun emission' hok r hr ↦ h.must emission' hok r (hmust r hr)⟩

theorem Emits.ok (emission : Emission) :
    Emits (fun _ ↦ False) (fun _ ↦ False) emission (.ok emission) :=
  ⟨fun _ hr ↦ .inl hr, List.Subset.refl _, fun h ↦ ⟨h, emission, rfl⟩, fun _ _ _ h ↦ h.elim⟩

/-- One loop after the other. -/
theorem Emits.bind {must may must' may' : CodeRelation → Prop} {emission : Emission}
    {result : Except Emission Emission} {next : Emission → Except Emission Emission}
    (h : Emits must may emission result) (hnext : ∀ middle, Emits must' may' middle (next middle)) :
    Emits (fun r ↦ must r ∨ must' r) (fun r ↦ may r ∨ may' r) emission (result.bind next) := by
  cases result with
  | error stopped =>
      refine ⟨fun r hr ↦ (h.may r hr).imp_right .inl, h.keeps, fun hcomplete ↦ ?_,
        fun emission' hok ↦ ?_⟩
      · obtain ⟨-, emission', hok⟩ := h.complete hcomplete
        cases hok
      · cases hok
  | ok middle =>
      have hrest := hnext middle
      refine ⟨fun r hr ↦ ?_, List.Subset.trans h.keeps hrest.keeps, fun hcomplete ↦ ?_, ?_⟩
      · rcases hrest.may r hr with hmiddle | hmay
        · exact (h.may r hmiddle).imp_right .inl
        · exact .inr (.inr hmay)
      · obtain ⟨hmiddle, hok⟩ := hrest.complete hcomplete
        exact ⟨(h.complete hmiddle).1, hok⟩
      · rintro emission' hok r (hmust | hmust)
        · have hkept := hrest.keeps (h.must middle rfl r hmust)
          have hok' : next middle = .ok emission' := hok
          rw [hok'] at hkept
          exact hkept
        · exact hrest.must emission' hok r hmust

theorem Emits.foldlM {α : Type} {must may : α → CodeRelation → Prop}
    {f : Emission → α → Except Emission Emission}
    (hf : ∀ emission a, Emits (must a) (may a) emission (f emission a)) (l : List α)
    (emission : Emission) :
    Emits (fun r ↦ ∃ a ∈ l, must a r) (fun r ↦ ∃ a ∈ l, may a r) emission (l.foldlM f emission) := by
  induction l generalizing emission with
  | nil => exact (Emits.ok emission).imp (fun r ⟨_, ha, _⟩ ↦ nomatch ha) (fun r h ↦ h.elim)
  | cons a rest ih =>
      refine ((hf emission a).bind ih).imp (fun r ↦ ?_) (fun r ↦ ?_)
      · rintro ⟨b, hb, hmust⟩
        rcases List.mem_cons.mp hb with rfl | hb
        · exact .inl hmust
        · exact .inr ⟨b, hb, hmust⟩
      · rintro (hmay | ⟨b, hb, hmay⟩)
        · exact ⟨a, List.mem_cons_self, hmay⟩
        · exact ⟨b, List.mem_cons_of_mem a hb, hmay⟩

theorem Emits.push (maxRelations : ℕ) (emission : Emission) (made : Option CodeRelation) :
    Emits (fun r ↦ made = some r) (fun r ↦ made = some r) emission
      (emission.push maxRelations made) := by
  rw [Emission.push]
  split
  next =>
    refine ⟨fun r hr ↦ .inl hr, List.Subset.refl _, fun h ↦ ?_, fun emission' h ↦ ?_⟩
    · cases h
    · cases h
  next =>
    refine ⟨fun r hr ↦ ?_, List.subset_append_left _ _, fun h ↦ ⟨h, _, rfl⟩, ?_⟩
    · rcases List.mem_append.mp hr with hr | hr
      · exact .inl hr
      · exact .inr (Option.mem_toList.mp hr)
    · intro emission' h r hr
      obtain rfl := Except.ok.inj h
      exact List.mem_append_right _ (Option.mem_toList.mpr hr)

theorem Emits.push_all (maxRelations : ℕ) (emission : Emission) (made : List (Option CodeRelation)) :
    Emits (fun r ↦ some r ∈ made) (fun r ↦ some r ∈ made) emission
      (made.foldlM (Emission.push maxRelations) emission) := by
  refine (Emits.foldlM (Emits.push maxRelations) made emission).imp (fun r hr ↦ ?_) (fun r ↦ ?_)
  · exact ⟨_, hr, rfl⟩
  · rintro ⟨a, ha, rfl⟩
    exact ha

/-- What a relation of an import or of its dependency is. -/
theorem Emits.pushImport (source : Source) (declarations : List (String × String))
    (moduleId : String) (maxRelations : ℕ) (emission : Emission) (entry : String × SourceSpan) :
    Emits (fun _ ↦ False) (fun r ↦ (r.kind = .import ∧
        r.toSymbolId = uniqueTarget declarations r.toName) ∨
        r.kind = .dependency ∧ r.toSymbolId = none) emission
      (source.pushImport declarations moduleId maxRelations emission entry) := by
  have hdependency : ∀ middle : Emission, Emits (fun _ ↦ False)
      (fun r ↦ r.kind = .dependency ∧ r.toSymbolId = none) middle
      (.ok (if middle.relations.length < maxRelations then
        { middle with relations := middle.relations ++ [source.relation .dependency
          (some moduleId) source.file none entry.1 entry.2 (3 / 4) .inferred false] }
      else middle)) := by
    intro middle
    split
    next =>
      refine ⟨fun r hr ↦ ?_, List.subset_append_left _ _, fun h ↦ ⟨h, _, rfl⟩,
        fun _ _ _ h ↦ h.elim⟩
      rcases List.mem_append.mp hr with hr | hr
      · exact .inl hr
      · rw [List.mem_singleton.mp hr]
        exact .inr ⟨rfl, rfl⟩
    next => exact (Emits.ok middle).imp (fun _ h ↦ h) (fun _ h ↦ h.elim)
  have hmap : ∀ (x : Except Emission Emission) (f : Emission → Emission),
      x.map f = x.bind fun middle ↦ .ok (f middle) := by
    intro x f
    cases x <;> rfl
  rw [Source.pushImport, hmap]
  refine ((Emits.push maxRelations emission _).bind hdependency).imp (fun _ h ↦ h.elim) ?_
  rintro r (hmade | hmade)
  · obtain rfl := Option.some.inj hmade
    exact .inl ⟨rfl, rfl⟩
  · exact .inr hmade

/-- The relations of a line. -/
def LineRelation (source : Source) (symbols : List CodeSymbol)
    (declarations : List (String × String)) (line : Line) (r : CodeRelation) : Prop :=
  (∃ token ∈ callTokens source.unicode line.text,
      source.call symbols declarations line token = some r) ∨
    ∃ entry ∈ inheritanceTargets line.text source.language,
      source.inheritance symbols declarations line entry = r

theorem Emits.pushLine (source : Source) (symbols : List CodeSymbol)
    (declarations : List (String × String)) (maxRelations : ℕ) (emission : Emission)
    (line : Line) :
    Emits (LineRelation source symbols declarations line)
      (LineRelation source symbols declarations line) emission
      (source.pushLine symbols declarations maxRelations emission line) := by
  have hcall : ∀ r, some r ∈ (callTokens source.unicode line.text).map
      (source.call symbols declarations line) ↔ ∃ token ∈ callTokens source.unicode line.text,
        source.call symbols declarations line token = some r := fun r ↦ List.mem_map
  have hinheritance : ∀ r, some r ∈ (inheritanceTargets line.text source.language).map
      (fun entry ↦ some (source.inheritance symbols declarations line entry)) ↔
      ∃ entry ∈ inheritanceTargets line.text source.language,
        source.inheritance symbols declarations line entry = r := fun r ↦ by
    rw [List.mem_map]
    simp only [Option.some.injEq]
  rw [Source.pushLine]
  split
  next =>
    refine ⟨fun r hr ↦ .inl hr, List.Subset.refl _, fun h ↦ ?_, fun emission' h ↦ ?_⟩
    · cases h
    · cases h
  next =>
    refine ((Emits.push_all maxRelations emission _).bind fun middle ↦
      Emits.push_all maxRelations middle _).imp (fun r hr ↦ ?_) (fun r hr ↦ ?_)
    · exact hr.imp (Iff.mpr (hcall r)) (Iff.mpr (hinheritance r))
    · exact hr.imp (Iff.mp (hcall r)) (Iff.mp (hinheritance r))

theorem kind_of_mem_keywords {line : List Char} {entry : RelationKind × String}
    (h : entry ∈ [(" extends ", RelationKind.inheritance),
      (" implements ", RelationKind.implementation)].flatMap fun keyword ↦
        match splitOnce keyword.1.toList line with
        | none => []
        | some (_, rest) =>
            ((rest.splitOnP fun c ↦ c == ',' || c == '\x7b' || c == ':').map trim).filterMap
              fun target ↦ (splitWhitespace target).head?.map fun name ↦
                (keyword.2, String.ofList name)) :
    entry.1 ≠ .containment ∧ entry.1 ≠ .call := by
  obtain ⟨keyword, hkeyword, hentry⟩ := List.mem_flatMap.mp h
  have hkinds : ∀ keyword ∈ [(" extends ", RelationKind.inheritance),
      (" implements ", RelationKind.implementation)],
      keyword.2 ≠ .containment ∧ keyword.2 ≠ .call := by
    decide
  have hkind := hkinds keyword hkeyword
  split at hentry
  next => cases hentry
  next =>
    obtain ⟨target, -, hmap⟩ := List.mem_filterMap.mp hentry
    obtain ⟨name, -, rfl⟩ := Option.map_eq_some_iff.mp hmap
    exact hkind

theorem kind_of_mem_inheritanceTargets {line : List Char} {language : Language}
    {entry : RelationKind × String} (h : entry ∈ inheritanceTargets line language) :
    entry.1 ≠ .containment ∧ entry.1 ≠ .call := by
  rw [inheritanceTargets] at h
  simp only at h
  split at h
  next =>
    split at h
    next => exact kind_of_mem_keywords h
    next =>
      rcases List.mem_append.mp h with h | h
      · rcases List.mem_append.mp h with h | h
        · exact kind_of_mem_keywords h
        · rw [List.mem_singleton.mp h]
          exact ⟨RelationKind.noConfusion, RelationKind.noConfusion⟩
      · split at h
        next => cases h
        next =>
          rw [List.mem_singleton.mp h]
          exact ⟨RelationKind.noConfusion, RelationKind.noConfusion⟩
  next => exact kind_of_mem_keywords h

/-- A relation whose target is found by its name. -/
structure ByName (declarations : List (String × String)) (r : CodeRelation) : Prop where
  kind : r.kind ≠ .containment ∧ r.kind ≠ .call
  target : r.toSymbolId = none ∨ r.toSymbolId = uniqueTarget declarations r.toName

/-- Every relation is a containment, a call of a line or found by a name, and a
complete pass has all containments and calls. -/
theorem relate_spec (source : Source) (content : List Char) (moduleId : String)
    (maxRelations : ℕ) (scan : Scan) {emission : Emission}
    (h : source.relate content moduleId maxRelations scan = emission) :
    (∀ r ∈ emission.relations,
      (∃ symbol ∈ scan.symbols, source.containment scan.symbols symbol = some r) ∨
        (∃ line ∈ linesOf content, ∃ token ∈ callTokens source.unicode line.text,
          source.call scan.symbols scan.declarations line token = some r) ∨
        ByName scan.declarations r) ∧
      (emission.status = .complete → scan.status = .complete ∧
        (∀ symbol ∈ scan.symbols, ∀ r, source.containment scan.symbols symbol = some r →
          r ∈ emission.relations) ∧
        ∀ line ∈ linesOf content, ∀ token ∈ callTokens source.unicode line.text, ∀ r,
          source.call scan.symbols scan.declarations line token = some r →
            r ∈ emission.relations) := by
  rw [Source.relate] at h
  -- the five loops in turn
  generalize hstart : Emission.mk [] scan.status scan.diagnostics = start at h
  have hcontainment := Emits.push_all maxRelations start
    (scan.symbols.map (source.containment scan.symbols))
  generalize hfirst : (scan.symbols.map (source.containment scan.symbols)).foldlM
    (Emission.push maxRelations) start = first at h hcontainment
  have hexport := Emits.push_all maxRelations (settle first) (scan.exports.map fun entry ↦
    some (source.surface scan.declarations .export entry))
  generalize hsecond : (scan.exports.map fun entry ↦
    some (source.surface scan.declarations .export entry)).foldlM
      (Emission.push maxRelations) (settle first) = second at h hexport
  have hoverride := Emits.push_all maxRelations (settle second) (scan.overrides.map fun entry ↦
    some (source.surface scan.declarations .override entry))
  generalize hthird : (scan.overrides.map fun entry ↦
    some (source.surface scan.declarations .override entry)).foldlM
      (Emission.push maxRelations) (settle second) = third at h hoverride
  have himport := Emits.foldlM
    (Emits.pushImport source scan.declarations moduleId maxRelations) scan.imports (settle third)
  generalize hfourth : scan.imports.foldlM
    (source.pushImport scan.declarations moduleId maxRelations) (settle third) = fourth
    at h himport
  have hlines := Emits.foldlM
    (Emits.pushLine source scan.symbols scan.declarations maxRelations) (linesOf content)
    (settle fourth)
  generalize hfifth : (linesOf content).foldlM
    (source.pushLine scan.symbols scan.declarations maxRelations) (settle fourth) = fifth
    at h hlines
  have hsurface : ∀ (kind : RelationKind) (entries : List (String × SourceSpan)),
      kind ≠ .containment ∧ kind ≠ .call → ∀ r, some r ∈ (entries.map fun entry ↦
        some (source.surface scan.declarations kind entry)) → ByName scan.declarations r := by
    intro kind entries hkind r hr
    obtain ⟨entry, -, hr⟩ := List.mem_map.mp hr
    obtain rfl := Option.some.inj hr
    refine ⟨hkind, ?_⟩
    change (if kind = .override then none else _) = none ∨
      (if kind = .override then none else _) = _
    split
    next => exact .inl rfl
    next => exact .inr rfl
  subst h
  constructor
  · intro r hr
    rcases hlines.may r hr with hr | ⟨line, hline, hcall | ⟨entry, hentry, rfl⟩⟩
    · rcases himport.may r hr with hr | ⟨entry, -, ⟨hkind, htarget⟩ | ⟨hkind, htarget⟩⟩
      · rcases hoverride.may r hr with hr | hr
        · rcases hexport.may r hr with hr | hr
          · rcases hcontainment.may r hr with hr | hr
            · rw [← hstart] at hr
              cases hr
            · obtain ⟨symbol, hsymbol, hmade⟩ := List.mem_map.mp hr
              exact .inl ⟨symbol, hsymbol, hmade⟩
          · exact .inr (.inr (hsurface .export _
              ⟨RelationKind.noConfusion, RelationKind.noConfusion⟩ r hr))
        · exact .inr (.inr (hsurface .override _
            ⟨RelationKind.noConfusion, RelationKind.noConfusion⟩ r hr))
      · exact .inr (.inr ⟨by rw [hkind]; exact ⟨RelationKind.noConfusion,
          RelationKind.noConfusion⟩, .inr htarget⟩)
      · exact .inr (.inr ⟨by rw [hkind]; exact ⟨RelationKind.noConfusion,
          RelationKind.noConfusion⟩, .inl htarget⟩)
    · obtain ⟨token, htoken, hr⟩ := hcall
      exact .inr (.inl ⟨line, hline, token, htoken, hr⟩)
    · exact .inr (.inr ⟨kind_of_mem_inheritanceTargets hentry, .inr rfl⟩)
  · intro hstatus
    obtain ⟨hfourthStatus, fifth', hfifth'⟩ := hlines.complete hstatus
    obtain ⟨hthirdStatus, -⟩ := himport.complete hfourthStatus
    obtain ⟨hsecondStatus, -⟩ := hoverride.complete hthirdStatus
    obtain ⟨hfirstStatus, -⟩ := hexport.complete hsecondStatus
    obtain ⟨hstartStatus, first', hfirst'⟩ := hcontainment.complete hfirstStatus
    refine ⟨by rw [← hstart] at hstartStatus; exact hstartStatus, ?_, ?_⟩
    · intro symbol hsymbol r hr
      have hmem := hcontainment.must first' hfirst' r (List.mem_map.mpr ⟨symbol, hsymbol, hr⟩)
      apply hlines.keeps
      apply himport.keeps
      apply hoverride.keeps
      apply hexport.keeps
      rw [hfirst']
      exact hmem
    · intro line hline token htoken r hr
      have hmem := hlines.must fifth' hfifth' r ⟨line, hline, .inl ⟨token, htoken, hr⟩⟩
      rw [hfifth']
      exact hmem

/-! ## Attribution -/

/-- The last symbol that is declared at or before a line. -/
def lastDeclared (symbols : List CodeSymbol) (startLine : ℕ) : Option CodeSymbol :=
  symbols.reverse.find? fun symbol ↦ symbol.span.startLine ≤ startLine

/-- The name that a relation gives to its target: a containment names its
container in full. -/
def CodeSymbol.nameFor (symbol : CodeSymbol) (r : CodeRelation) : String :=
  if r.kind = .containment then symbol.qualifiedName else symbol.name

/-- Calls belong to the last symbol declared so far and never to a name that
their line declares, targets are unique, and spans lie in the text. -/
structure Attributed (content : List Char) (symbols : List CodeSymbol)
    (relations : List CodeRelation) : Prop where
  owner : ∀ r ∈ relations, r.kind = .call → ∃ symbol,
    lastDeclared symbols r.span.startLine = some symbol ∧
      r.fromSymbolId = some symbol.id ∧ r.fromName = symbol.name
  declared : ∀ r ∈ relations, r.kind = .call → ∀ symbol ∈ symbols.tail,
    symbol.span.startLine = r.span.startLine → r.toName ≠ symbol.name
  target : ∀ r ∈ relations, ∀ id, r.toSymbolId = some id →
    ∃ symbol, symbols.filter (fun symbol ↦ symbol.nameFor r = r.toName) = [symbol] ∧
      symbol.id = id
  spans : ∀ symbol ∈ symbols, ∃ text,
    slice content symbol.span.startByte symbol.span.endByte = some text

/-- No declaration that is indented has a call on its own line, apart from the
module's name on the first line, and no container shares its full name. -/
structure CallsClear (source : Source) (content : List Char) : Prop where
  indented : ∀ entry ∈ source.outline [] (linesOf content), entry.line.indent ≠ 0 →
    ∀ token ∈ callTokens source.unicode entry.line.text,
      entry.line.index = 0 ∧ token = moduleNameOf source.file
  containers : ∀ entry ∈ source.outline [] (linesOf content), ∀ container,
    entry.container = some container →
      ((source.file :: (source.outline [] (linesOf content)).map Entry.qualifiedName).filter
        (· = container)).length ≤ 1

variable {source : Source} {content : List Char} {scan : Scan}

theorem registered_start (status : ParseStatus) (diagnostics : List String) :
    Registered source (source.start content status diagnostics) := by
  refine ⟨rfl, fun symbol hsymbol ↦ ?_⟩
  rw [List.mem_singleton.mp hsymbol]
  exact ⟨_, _, rfl⟩

theorem mem_of_map_key {symbols : List CodeSymbol} {entries : List Entry}
    (h : symbols.map CodeSymbol.key = entries.map Entry.key) :
    (∀ symbol ∈ symbols, ∃ entry ∈ entries, entry.key = symbol.key) ∧
      ∀ entry ∈ entries, ∃ symbol ∈ symbols, symbol.key = entry.key := by
  constructor
  · intro symbol hsymbol
    have hmem := List.mem_map_of_mem (f := CodeSymbol.key) hsymbol
    rw [h] at hmem
    exact List.mem_map.mp hmem
  · intro entry hentry
    have hmem := List.mem_map_of_mem (f := Entry.key) hentry
    rw [← h] at hmem
    exact List.mem_map.mp hmem

theorem line_mem_of_mem_outline {entry : Entry}
    (h : entry ∈ source.outline [] (linesOf content)) : entry.line ∈ linesOf content :=
  (outline_sublist source [] (linesOf content)).subset (List.mem_map_of_mem h)

/-- Symbols with ids that differ in their starts differ. -/
theorem symbolId_injective (hinj : Function.Injective source.stableHash)
    {qualified qualified' : String} {kind kind' : SymbolKind} {span span' : SourceSpan}
    (h : source.symbolId qualified kind span = source.symbolId qualified' kind' span') :
    span.startByte = span'.startByte := by
  have htexts := hinj h
  have hcolon : ∀ n, ':' ∉ Nat.toDigits 10 n := fun n ↦ notMem_toDigits rfl n
  have hfront := append_cons_inj_of_notMem_right (hcolon _) (hcolon _) htexts
  rw [hfront] at htexts
  exact toDigits_injective (List.cons.inj (List.append_cancel_left htexts)).2

/-- Two searches that agree on all elements. -/
theorem find?_congr_mem {α : Type*} {p q : α → Bool} {l : List α} (h : ∀ a ∈ l, p a = q a) :
    l.find? p = l.find? q := by
  induction l with
  | nil => rfl
  | cons a rest ih =>
      rw [List.find?_cons, List.find?_cons, h a List.mem_cons_self,
        ih fun b hb ↦ h b (List.mem_cons_of_mem a hb)]

/-- The last one of the symbols in order. -/
theorem find?_reverse_of_pairwise {symbols : List CodeSymbol}
    (h : symbols.Pairwise fun a b ↦ a.span.startLine < b.span.startLine) {symbol : CodeSymbol}
    (hsymbol : symbol ∈ symbols) :
    symbols.reverse.find? (fun other ↦ other.span.startLine ≤ symbol.span.startLine) =
      some symbol := by
  induction symbols using List.reverseRecOn with
  | nil => cases hsymbol
  | append_singleton symbols last ih =>
      rw [List.pairwise_append] at h
      rw [List.reverse_append, List.reverse_singleton, List.singleton_append, List.find?_cons]
      rcases List.mem_append.mp hsymbol with hsymbol | hsymbol
      · have hlt := h.2.2 symbol hsymbol last List.mem_cons_self
        rw [decide_eq_false (not_le.mpr hlt)]
        exact ih h.1 hsymbol
      · obtain rfl := List.mem_singleton.mp hsymbol
        simp

/-- The symbols as a first one for the module and those of the outline, which
are in the order of their lines. -/
structure Parts (source : Source) (content : List Char) (symbols : List CodeSymbol)
    (first : CodeSymbol) (rest : List CodeSymbol) : Prop where
  symbols : symbols = first :: rest
  first : first.key = (source.moduleSymbol content).key
  rest : rest.map CodeSymbol.key = (source.outline [] (linesOf content)).map Entry.key

namespace Parts

variable {symbols : List CodeSymbol} {first : CodeSymbol} {rest : List CodeSymbol}

theorem first_span (h : Parts source content symbols first rest) :
    first.span = moduleSpan content := congrArg Key.span h.first

theorem first_name (h : Parts source content symbols first rest) :
    first.name = moduleNameOf source.file := congrArg Key.name h.first

theorem qualifiedNames (h : Parts source content symbols first rest) :
    symbols.map CodeSymbol.qualifiedName =
      source.file :: (source.outline [] (linesOf content)).map Entry.qualifiedName := by
  have hrest := congrArg (List.map Key.qualifiedName) h.rest
  rw [List.map_map, List.map_map] at hrest
  rw [h.symbols, List.map_cons]
  exact congrArg₂ _ (congrArg Key.qualifiedName h.first) hrest

/-- A symbol of the outline, with its entry. -/
theorem entry_of_mem (h : Parts source content symbols first rest) {symbol : CodeSymbol}
    (hsymbol : symbol ∈ rest) :
    ∃ entry ∈ source.outline [] (linesOf content), entry.key = symbol.key ∧
      entry.line ∈ linesOf content ∧ symbol.span = entry.line.span := by
  obtain ⟨entry, hentry, hkey⟩ := (mem_of_map_key h.rest).1 symbol hsymbol
  exact ⟨entry, hentry, hkey, line_mem_of_mem_outline hentry, (congrArg Key.span hkey).symm⟩

theorem pairwise (h : Parts source content symbols first rest) :
    rest.Pairwise fun a b ↦ a.span.startLine < b.span.startLine := by
  have hlines := (pairwise_linesOf content).sublist (outline_sublist source [] (linesOf content))
  have hstarts : rest.map (fun symbol ↦ symbol.span.startLine) =
      (source.outline [] (linesOf content)).map fun entry ↦ entry.line.index + 1 := by
    have hmap := congrArg (List.map fun key : Key ↦ key.span.startLine) h.rest
    rw [List.map_map, List.map_map] at hmap
    exact hmap
  rw [← List.pairwise_map (f := fun symbol : CodeSymbol ↦ symbol.span.startLine) (R := (· < ·)),
    hstarts, List.pairwise_map]
  rw [List.pairwise_map] at hlines
  exact hlines.imp fun hlt ↦ Nat.succ_lt_succ hlt

/-- A line that is not an indented declaration belongs to the last symbol
declared so far. -/
theorem owner_eq (h : Parts source content symbols first rest) {line : Line}
    (hline : line ∈ linesOf content)
    (hflat : ∀ entry ∈ source.outline [] (linesOf content), entry.line = line → line.indent = 0) :
    owner symbols line = lastDeclared symbols (line.index + 1) := by
  refine find?_congr_mem fun symbol hsymbol ↦ ?_
  rw [List.mem_reverse, h.symbols] at hsymbol
  rw [decide_eq_decide]
  rcases List.mem_cons.mp hsymbol with rfl | hsymbol
  · rw [h.first_span]
    exact iff_of_true (Nat.zero_le _) (by simp [moduleSpan])
  · obtain ⟨entry, hentry, -, hmem, hspan⟩ := h.entry_of_mem hsymbol
    rw [hspan, span_le_iff hline hmem]
    refine and_iff_left_of_imp fun _ hindex ↦ ?_
    have heq := linesOf_inj hmem hline hindex
    rw [heq]
    exact hflat entry hentry heq

/-- Every line belongs to a symbol. -/
theorem exists_owner (h : Parts source content symbols first rest) (line : Line) :
    ∃ symbol ∈ symbols, owner symbols line = some symbol ∧ symbol.span.startByte ≤ line.offset := by
  cases howner : owner symbols line with
  | none =>
      have hnone := List.find?_eq_none.mp howner first (by
        rw [List.mem_reverse, h.symbols]
        exact List.mem_cons_self)
      rw [h.first_span] at hnone
      exact absurd (decide_eq_true (Nat.zero_le line.offset)) hnone
  | some symbol =>
      refine ⟨symbol, ?_, rfl, by simpa using List.find?_some howner⟩
      rw [← List.mem_reverse]
      exact List.mem_of_find?_eq_some howner

/-- The symbol an indented declaration's line belongs to is the module or stands
on an earlier line. -/
theorem owner_of_indented (h : Parts source content symbols first rest) {line : Line}
    (hline : line ∈ linesOf content) (hindent : line.indent ≠ 0) {symbol : CodeSymbol}
    (hsymbol : symbol ∈ symbols) (hstart : symbol.span.startByte ≤ line.offset) :
    symbol = first ∨ 1 ≤ symbol.span.startLine ∧ symbol.span.startLine < line.index + 1 := by
  rw [h.symbols] at hsymbol
  rcases List.mem_cons.mp hsymbol with rfl | hsymbol
  · exact .inl rfl
  · obtain ⟨entry, hentry, -, hmem, hspan⟩ := h.entry_of_mem hsymbol
    rw [hspan, span_le_iff hline hmem] at hstart
    rw [hspan]
    change _ ∨ 1 ≤ entry.line.index + 1 ∧ entry.line.index + 1 < line.index + 1
    have hle : entry.line.index + 1 ≤ line.index + 1 := hstart.1
    by_cases hindex : entry.line.index = line.index
    · rw [linesOf_inj hmem hline hindex] at hstart
      exact absurd (hstart.2 rfl) hindent
    · exact .inr ⟨by omega, by omega⟩

end Parts

/-- What a call of a line is. -/
theorem call_spec {symbols : List CodeSymbol} {declarations : List (String × String)} {line : Line}
    {token : String} {symbol : CodeSymbol} (howner : owner symbols line = some symbol) :
    (source.call symbols declarations line token = none ↔
        symbol.name = token ∧ symbol.span.startLine = line.index + 1) ∧
      ∀ r, source.call symbols declarations line token = some r →
        r.kind = .call ∧ r.span = line.wholeSpan ∧ r.toName = token ∧
          r.fromSymbolId = some symbol.id ∧ r.fromName = symbol.name ∧
          r.toSymbolId = uniqueTarget declarations token := by
  rw [Source.call, howner]
  simp only [Option.any_some]
  split
  next hskip =>
    rw [decide_eq_true_eq] at hskip
    exact ⟨iff_of_true rfl hskip, fun r h ↦ by cases h⟩
  next hnot =>
    rw [decide_eq_true_eq] at hnot
    refine ⟨iff_of_false (fun h ↦ by cases h) hnot, fun r hr ↦ ?_⟩
    obtain rfl := Option.some.inj hr
    exact ⟨rfl, rfl, rfl, rfl, rfl, rfl⟩

/-- A name has a target if it is the name of one symbol. -/
theorem exists_of_uniqueTarget (h : Registered source scan) {name id : String}
    (htarget : uniqueTarget scan.declarations name = some id) :
    ∃ symbol, scan.symbols.filter (fun symbol ↦ symbol.name = name) = [symbol] ∧
      symbol.id = id := by
  have hcandidates : candidates scan.declarations name =
      (scan.symbols.filter fun symbol ↦ symbol.name = name).map CodeSymbol.id := by
    rw [candidates, h.declarations, List.filter_map, List.map_map]
    rfl
  rw [uniqueTarget, hcandidates] at htarget
  cases hfilter : scan.symbols.filter fun symbol ↦ symbol.name = name with
  | nil =>
      rw [hfilter] at htarget
      cases htarget
  | cons symbol others =>
      rw [hfilter] at htarget
      cases others with
      | nil => exact ⟨symbol, rfl, Option.some.inj htarget⟩
      | cons other others => cases htarget

theorem exists_parts {status : ParseStatus} {diagnostics : List String}
    (h : scan.symbols.map CodeSymbol.key =
      (source.start content status diagnostics).symbols.map CodeSymbol.key ++
        (source.outline [] (linesOf content)).map Entry.key) :
    ∃ first rest, Parts source content scan.symbols first rest := by
  cases hsymbols : scan.symbols with
  | nil =>
      rw [hsymbols] at h
      cases h
  | cons first rest =>
      rw [hsymbols] at h
      obtain ⟨hfirst, hrest⟩ := List.cons.inj h
      exact ⟨first, rest, rfl, hfirst, hrest⟩

/-- What the passes after the first one give for some symbols. -/
structure Related (source : Source) (content : List Char) (scan : Scan)
    (relations : List CodeRelation) : Prop where
  may : ∀ r ∈ relations,
    (∃ symbol ∈ scan.symbols, source.containment scan.symbols symbol = some r) ∨
      (∃ line ∈ linesOf content, ∃ token ∈ callTokens source.unicode line.text,
        source.call scan.symbols scan.declarations line token = some r) ∨
      ByName scan.declarations r
  containments : ∀ symbol ∈ scan.symbols, ∀ r,
    source.containment scan.symbols symbol = some r → r ∈ relations
  calls : ∀ line ∈ linesOf content, ∀ token ∈ callTokens source.unicode line.text, ∀ r,
    source.call scan.symbols scan.declarations line token = some r → r ∈ relations

variable {first : CodeSymbol} {rest : List CodeSymbol} {relations : List CodeRelation}

/-- A call among the relations comes from a line. -/
theorem Related.line_of_call (h : Related source content scan relations) {r : CodeRelation}
    (hr : r ∈ relations) (hkind : r.kind = .call) :
    ∃ line ∈ linesOf content, ∃ token ∈ callTokens source.unicode line.text,
      source.call scan.symbols scan.declarations line token = some r := by
  rcases h.may r hr with ⟨symbol, -, hmade⟩ | hcall | hnamed
  · obtain ⟨container, -, rfl⟩ := Option.map_eq_some_iff.mp hmade
    cases hkind
  · exact hcall
  · exact absurd hkind hnamed.kind.2

/-- Under the condition an indented declaration's line has no calls. -/
theorem call_eq_none_of_indented (hclear : CallsClear source content)
    (hparts : Parts source content scan.symbols first rest) {entry : Entry}
    (hentry : entry ∈ source.outline [] (linesOf content)) (hindent : entry.line.indent ≠ 0)
    {token : String} (htoken : token ∈ callTokens source.unicode entry.line.text) :
    source.call scan.symbols scan.declarations entry.line token = none := by
  obtain ⟨hindex, hname⟩ := hclear.indented entry hentry hindent token htoken
  obtain ⟨symbol, hsymbol, howner, hstart⟩ := hparts.exists_owner entry.line
  refine Iff.mpr (call_spec howner).1 ?_
  rcases hparts.owner_of_indented (line_mem_of_mem_outline hentry) hindent hsymbol hstart with
    rfl | ⟨hpos, hlt⟩
  · rw [hparts.first_name, hparts.first_span, hname, hindex]
    exact ⟨rfl, rfl⟩
  · omega

/-- The line of a call is no indented declaration under the condition. -/
theorem owner_of_call (hclear : CallsClear source content)
    (hparts : Parts source content scan.symbols first rest) {line : Line}
    (hline : line ∈ linesOf content) {token : String}
    (htoken : token ∈ callTokens source.unicode line.text) {r : CodeRelation}
    (hr : source.call scan.symbols scan.declarations line token = some r) :
    owner scan.symbols line = lastDeclared scan.symbols (line.index + 1) := by
  refine hparts.owner_eq hline fun entry hentry heq ↦ ?_
  by_contra hindent
  subst heq
  rw [call_eq_none_of_indented hclear hparts hentry hindent htoken] at hr
  cases hr

theorem attributed_of_callsClear (hclear : CallsClear source content)
    (hparts : Parts source content scan.symbols first rest) (hregistered : Registered source scan)
    (hrelated : Related source content scan relations) :
    Attributed content scan.symbols relations where
  owner := by
    intro r hr hkind
    obtain ⟨line, hline, token, htoken, hcall⟩ := hrelated.line_of_call hr hkind
    obtain ⟨symbol, -, howner, -⟩ := hparts.exists_owner line
    obtain ⟨-, hspan, -, hid, hname, -⟩ := (call_spec howner).2 r hcall
    refine ⟨symbol, ?_, hid, hname⟩
    rw [hspan, ← howner, owner_of_call hclear hparts hline htoken hcall]
    rfl
  declared := by
    intro r hr hkind symbol hsymbol hstart hname
    obtain ⟨line, hline, token, htoken, hcall⟩ := hrelated.line_of_call hr hkind
    obtain ⟨found, -, howner, -⟩ := hparts.exists_owner line
    obtain ⟨-, hspan, htoName, -⟩ := (call_spec howner).2 r hcall
    rw [hspan] at hstart
    rw [hparts.symbols, List.tail_cons] at hsymbol
    -- the line belongs to the symbol it declares, which the call skips
    have hlast : lastDeclared scan.symbols (line.index + 1) = some symbol := by
      have hfind := find?_reverse_of_pairwise hparts.pairwise hsymbol
      rw [hstart] at hfind
      rw [lastDeclared, hparts.symbols, List.reverse_cons, List.find?_append]
      change (rest.reverse.find? fun other ↦ other.span.startLine ≤ line.index + 1).or _ = _
      have hfind' : rest.reverse.find? (fun other ↦ other.span.startLine ≤ line.index + 1) =
          some symbol := hfind
      rw [hfind']
      rfl
    rw [← owner_of_call hclear hparts hline htoken hcall] at hlast
    have hnone : source.call scan.symbols scan.declarations line token = none :=
      Iff.mpr (call_spec hlast).1 ⟨hname.symm.trans htoName, hstart⟩
    rw [hnone] at hcall
    cases hcall
  target := by
    intro r hr id hid
    have hnamed : r.kind ≠ .containment → r.toSymbolId = uniqueTarget scan.declarations r.toName →
        ∃ symbol, scan.symbols.filter (fun symbol ↦ symbol.nameFor r = r.toName) = [symbol] ∧
          symbol.id = id := by
      intro hkind htarget
      obtain ⟨symbol, hfilter, hsymbol⟩ :=
        exists_of_uniqueTarget hregistered (htarget.symm.trans hid)
      refine ⟨symbol, ?_, hsymbol⟩
      rw [← hfilter]
      refine List.filter_congr fun other _ ↦ ?_
      rw [CodeSymbol.nameFor, if_neg hkind]
    rcases hrelated.may r hr with ⟨symbol, hsymbol, hmade⟩ | ⟨line, hline, token, htoken, hcall⟩ |
      hbyName
    · obtain ⟨container, hcontainer, rfl⟩ := Option.map_eq_some_iff.mp hmade
      obtain ⟨parent, hparent, rfl⟩ := Option.map_eq_some_iff.mp hid
      have hnamedParent := List.find?_some hparent
      have hmem : parent ∈ scan.symbols.filter fun other ↦ other.qualifiedName = container :=
        List.mem_filter.mpr ⟨List.mem_of_find?_eq_some hparent, hnamedParent⟩
      have hle : (scan.symbols.filter fun other ↦ other.qualifiedName = container).length ≤ 1 := by
        rw [hparts.symbols] at hsymbol
        rcases List.mem_cons.mp hsymbol with rfl | hsymbol
        · have hnone := congrArg Key.container hparts.first
          change symbol.container = none at hnone
          rw [hcontainer] at hnone
          cases hnone
        · obtain ⟨entry, hentry, hkey, -⟩ := hparts.entry_of_mem hsymbol
          have hin := hclear.containers entry hentry container
            ((congrArg Key.container hkey).trans hcontainer)
          rw [← hparts.qualifiedNames, List.filter_map, List.length_map] at hin
          exact hin
      refine ⟨parent, ?_, rfl⟩
      change scan.symbols.filter (fun other ↦ other.qualifiedName = container) = [parent]
      cases hfilter : scan.symbols.filter fun other ↦ other.qualifiedName = container with
      | nil =>
          rw [hfilter] at hmem
          cases hmem
      | cons found others =>
          rw [hfilter] at hmem hle
          obtain rfl : others = [] := by
            rw [List.length_cons] at hle
            exact List.length_eq_zero_iff.mp (by omega)
          rw [List.mem_singleton.mp hmem]
    · obtain ⟨found, -, howner, -⟩ := hparts.exists_owner line
      obtain ⟨hkind, -, htoName, -, -, htarget⟩ := (call_spec howner).2 r hcall
      refine hnamed (by rw [hkind]; exact RelationKind.noConfusion) ?_
      rw [htoName]
      exact htarget
    · rcases hbyName.target with hnone | htarget
      · rw [hnone] at hid
        cases hid
      · exact hnamed hbyName.kind.1 htarget
  spans := by
    intro symbol hsymbol
    rw [hparts.symbols] at hsymbol
    rcases List.mem_cons.mp hsymbol with rfl | hsymbol
    · refine ⟨content, ?_⟩
      rw [hparts.first_span]
      exact Iff.mpr slice_eq_some_iff ⟨[], [], by simp, rfl, by simp [moduleSpan]⟩
    · obtain ⟨entry, -, -, hmem, hspan⟩ := hparts.entry_of_mem hsymbol
      rw [hspan]
      exact ⟨entry.line.trimmed, Line.slice_span hmem⟩

theorem callsClear_of_attributed (hinj : Function.Injective source.stableHash)
    (hattributed : Attributed content scan.symbols relations)
    (hparts : Parts source content scan.symbols first rest) (hregistered : Registered source scan)
    (hrelated : Related source content scan relations) : CallsClear source content where
  indented := by
    intro entry hentry hindent token htoken
    have hline := line_mem_of_mem_outline hentry
    obtain ⟨found, hfound, howner, hstart⟩ := hparts.exists_owner entry.line
    by_contra hnot
    -- the call of the token belongs to what stands before the declaration
    cases hcall : source.call scan.symbols scan.declarations entry.line token with
    | none =>
        obtain ⟨hname, hstartLine⟩ := Iff.mp (call_spec howner).1 hcall
        rcases hparts.owner_of_indented hline hindent hfound hstart with rfl | ⟨hpos, hlt⟩
        · rw [hparts.first_span] at hstartLine
          rw [hparts.first_name] at hname
          have hindex : 1 = entry.line.index + 1 := hstartLine
          exact hnot ⟨by omega, hname.symm⟩
        · omega
    | some r =>
        have hr := hrelated.calls entry.line hline token htoken r hcall
        obtain ⟨hkind, hspan, -, hid, -, -⟩ := (call_spec howner).2 r hcall
        obtain ⟨last, hlast, hlastId, -⟩ := hattributed.owner r hr hkind
        obtain ⟨declared, hdeclared, hkey⟩ := (mem_of_map_key hparts.rest).2 entry hentry
        have hdeclaredSpan : declared.span = entry.line.span := congrArg Key.span hkey
        have hfind := find?_reverse_of_pairwise hparts.pairwise hdeclared
        rw [hdeclaredSpan] at hfind
        rw [hspan, lastDeclared, hparts.symbols, List.reverse_cons, List.find?_append] at hlast
        have hfind' : rest.reverse.find? (fun other ↦
            other.span.startLine ≤ entry.line.wholeSpan.startLine) = some declared := hfind
        rw [hfind', Option.some_or, Option.some.injEq] at hlast
        rw [hid, Option.some.injEq, ← hlast] at hlastId
        obtain ⟨qualified, kind, hfoundId⟩ := hregistered.ids found hfound
        obtain ⟨qualified', kind', hdeclaredId⟩ := hregistered.ids declared (by
          rw [hparts.symbols]
          exact List.mem_cons_of_mem first hdeclared)
        rw [hfoundId, hdeclaredId] at hlastId
        have hsame := symbolId_injective hinj hlastId
        rw [hdeclaredSpan] at hsame
        have hafter : entry.line.span.startByte = entry.line.offset + entry.line.indent := rfl
        omega
  containers := by
    intro entry hentry container hcontainer
    obtain ⟨declared, hdeclared, hkey⟩ := (mem_of_map_key hparts.rest).2 entry hentry
    have hsymbol : declared ∈ scan.symbols := by
      rw [hparts.symbols]
      exact List.mem_cons_of_mem first hdeclared
    rw [← hparts.qualifiedNames, List.filter_map, List.length_map]
    change (scan.symbols.filter fun other ↦ other.qualifiedName = container).length ≤ 1
    cases hparent : scan.symbols.find? fun candidate ↦ candidate.qualifiedName = container with
    | none =>
        rw [List.filter_eq_nil_iff.mpr (List.find?_eq_none.mp hparent)]
        exact Nat.zero_le 1
    | some parent =>
        have hcontainer' : declared.container = some container :=
          (congrArg Key.container hkey).trans hcontainer
        obtain ⟨r, hr⟩ : ∃ r, source.containment scan.symbols declared = some r := by
          rw [Source.containment, hcontainer']
          exact ⟨_, rfl⟩
        have hmade := hr
        rw [Source.containment, hcontainer', Option.map_some, Option.some.injEq] at hmade
        simp only [hparent] at hmade
        subst hmade
        obtain ⟨sole, hfilter, -⟩ := hattributed.target _
          (hrelated.containments declared hsymbol _ hr) parent.id rfl
        have hfilter' : scan.symbols.filter (fun other ↦ other.qualifiedName = container) = [sole] :=
          hfilter
        rw [hfilter']
        exact le_rfl

/-- A source that is parsed to completion has its calls attributed to the last
declaration if and only if its indented declarations make no calls on their own
lines and its containers do not share their names. -/
theorem parseDocument_attributed_iff {stableHash : List Char → String}
    (hinj : Function.Injective stableHash) (unicode : Unicode) (clock : Clock)
    (limits : ParseLimits) (document : Document)
    (hcomplete : (parseDocument stableHash unicode clock limits document).status = .complete) :
    Attributed document.content.toList
        (parseDocument stableHash unicode clock limits document).symbols
        (parseDocument stableHash unicode clock limits document).relations ↔
      CallsClear (Source.of stableHash unicode document) document.content.toList := by
  generalize houtput : parseDocument stableHash unicode clock limits document = output
    at hcomplete ⊢
  rw [parseDocument] at houtput
  simp only at houtput
  generalize hsource : Source.of stableHash unicode document = source at houtput ⊢
  generalize document.content.toList = content at houtput ⊢
  have hhash : Function.Injective source.stableHash := by
    rw [← hsource]
    exact hinj
  split at houtput
  next =>
    subst houtput
    cases hcomplete
  next =>
  split at houtput
  next =>
    subst houtput
    cases hcomplete
  next =>
  split at houtput
  next =>
    subst houtput
    cases hcomplete
  next =>
  split at houtput
  next =>
    subst houtput
    cases hcomplete
  next =>
  split at houtput
  next =>
    subst houtput
    cases hcomplete
  next =>
    generalize hscanned : (linesOf content).foldlM (source.scanLine clock _) _ = scanned at houtput
    generalize hrelate : source.relate content (source.moduleSymbol content).id
      (limits.relationBudget content) (settle scanned) = emission at houtput
    subst houtput
    obtain ⟨hmay, hmust⟩ := relate_spec source content _ _ _ hrelate
    obtain ⟨hstatus, hcontainments, hcalls⟩ := hmust hcomplete
    cases scanned with
    | error stopped => exact absurd hstatus (foldlM_scanLine_error hscanned)
    | ok scan =>
        obtain ⟨-, hkeys, hregistered⟩ := foldlM_scanLine_ok hscanned
        obtain ⟨first, rest, hparts⟩ := exists_parts hkeys
        have hrelated : Related source content scan emission.relations :=
          ⟨hmay, hcontainments, hcalls⟩
        exact ⟨fun h ↦ callsClear_of_attributed hhash h hparts
            (hregistered (registered_start _ _)) hrelated,
          fun h ↦ attributed_of_callsClear h hparts (hregistered (registered_start _ _)) hrelated⟩

/-- A Python module of some text. -/
def sampleModule (content : String) : Document where
  source := "code"
  sourceId := "src/app.py"
  title := "app.py"
  content := content
  uri := none
  updatedAt := "2026-01-01T00:00:00Z"
  project := "p"
  acl := []
  metadata := .object []

theorem parseDocument_attributed_iff_flat :
    Attributed (sampleModule "def f(x):\n  return g(x)\n").content.toList
        (parseDocument String.ofList .ascii .still .default
          (sampleModule "def f(x):\n  return g(x)\n")).symbols
        (parseDocument String.ofList .ascii .still .default
          (sampleModule "def f(x):\n  return g(x)\n")).relations ↔
      CallsClear (Source.of String.ofList .ascii (sampleModule "def f(x):\n  return g(x)\n"))
        (sampleModule "def f(x):\n  return g(x)\n").content.toList :=
  parseDocument_attributed_iff (fun _ _ h ↦ String.ofList_injective h) .ascii .still .default
    (sampleModule "def f(x):\n  return g(x)\n") (by decide +kernel)

/-- An indented method calls itself by its parameter list. -/
theorem parseDocument_indented :
    ¬∀ (stableHash : List Char → String) (unicode : Unicode) (clock : Clock)
      (limits : ParseLimits) (document : Document), Function.Injective stableHash →
      (parseDocument stableHash unicode clock limits document).status = .complete →
        Attributed document.content.toList
          (parseDocument stableHash unicode clock limits document).symbols
          (parseDocument stableHash unicode clock limits document).relations := by
  intro h
  have hattributed := h String.ofList .ascii .still .default
    (sampleModule "class A:\n  def f(x):\n    pass\n") (fun _ _ h ↦ String.ofList_injective h)
    (by decide +kernel)
  have hcall : ((parseDocument String.ofList .ascii .still .default
      (sampleModule "class A:\n  def f(x):\n    pass\n")).relations.any fun r ↦
        decide (r.kind = .call) && (parseDocument String.ofList .ascii .still .default
          (sampleModule "class A:\n  def f(x):\n    pass\n")).symbols.tail.any fun symbol ↦
            symbol.span.startLine = r.span.startLine ∧ r.toName = symbol.name) = true := by
    decide +kernel
  obtain ⟨r, hr, hcall⟩ := List.any_eq_true.mp hcall
  obtain ⟨hkind, hsymbols⟩ := Bool.and_eq_true_iff.mp hcall
  obtain ⟨symbol, hsymbol, hsame⟩ := List.any_eq_true.mp hsymbols
  obtain ⟨hline, hname⟩ := of_decide_eq_true hsame
  exact hattributed.declared r hr (of_decide_eq_true hkind) symbol hsymbol hline hname

end CodeParser

end Cortana
