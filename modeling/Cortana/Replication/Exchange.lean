import Cortana.Replication.Delivery
import Mathlib.Data.List.Perm.Subperm
import Mathlib.Order.Monotone.Basic
import Mathlib.Order.WellFounded

/-!
# Exchanging bundles

One replica exports a bundle for another one, which imports it whole or not at
all.  What the sender has imported itself comes with the bundle, so that a
change is sent again and again until the receiver has sent a bundle of its own.
An exchange keeps the invariant of the two replicas.  Where both go on being
heard, first the changes that they made themselves are acknowledged, and then
those that they have received.
-/

namespace Replication

namespace Replica

variable {κ δ φ τ β : Type*} [DecidableEq κ] [LinearOrder δ] [DecidableEq φ] [LinearOrder τ]
variable {digest : Digest β φ} {a b : δ} {p s s' : Replica κ δ φ τ β} {wp ws : ℤ}

/-! ## Delivering a bundle -/

/-- The watermark a bundle of the given length reaches. -/
def reach (r : Replica κ δ φ τ β) (w : ℤ) (limit : ℕ) : ℤ :=
  ((((r.journal.after w).take limit).getLast?).map fun c ↦ c.journalId).getD w

omit [DecidableEq κ] [DecidableEq φ] [LinearOrder τ] in
theorem upTo_exportEntries (p : Replica κ δ φ τ β) (peer : δ) (limit : ℕ) :
    p.upTo peer (p.exportEntries peer limit) = reach p (p.watermarks.acked peer) limit := by
  rw [upTo, exportEntries, reach, List.getLast?_map, Option.map_map]
  rfl

omit [DecidableEq κ] [LinearOrder δ] [DecidableEq φ] [LinearOrder τ] in
theorem le_reach (p : Replica κ δ φ τ β) (w : ℤ) (limit : ℕ) : w ≤ reach p w limit := by
  rw [reach]
  cases hlast : ((p.journal.after w).take limit).getLast? with
  | none => exact Int.le_refl _
  | some c =>
      have hmem : c ∈ p.journal.after w := List.mem_of_mem_take (List.mem_of_getLast? hlast)
      simp only [Journal.after, List.mem_filter, decide_eq_true_eq] at hmem
      exact Int.le_of_lt hmem.2

omit [DecidableEq κ] [LinearOrder δ] [DecidableEq φ] [LinearOrder τ] in
theorem reach_of_after_cons {c : Change κ δ φ τ} {rest : List (Change κ δ φ τ)}
    (hc : p.journal.after wp = c :: rest) (limit : ℕ) :
    reach p wp (limit + 1) = reach p c.journalId limit := by
  rw [reach, reach, hc, (Journal.after_of_after_cons hc).2.2, List.take_succ_cons,
    List.getLast?_cons]
  cases (rest.take limit).getLast? <;> rfl

/-- Delivering a bundle keeps the invariant. -/
theorem Connected.deliverAll (limit : ℕ) (h : Connected digest a b p s wp ws)
    (hwalk : Walk digest (Settles b p ws) s (((p.journal.after wp).take limit).map p.entry))
    (hreceive : s.receiveAll digest (((p.journal.after wp).take limit).map p.entry) = some s') :
    Connected digest a b p s' (reach p wp limit) ws := by
  induction limit generalizing wp s with
  | zero =>
      obtain rfl : s = s' := by simpa [receiveAll] using hreceive
      simpa [reach] using h
  | succ limit ih =>
      cases hc : p.journal.after wp with
      | nil =>
          obtain rfl : s = s' := by simpa [receiveAll, hc] using hreceive
          simpa [reach, hc] using h
      | cons c rest =>
          rw [hc, List.take_succ_cons, List.map_cons] at hwalk hreceive
          rw [receiveAll_cons] at hreceive
          obtain ⟨t, ht, hreceive⟩ := Option.bind_eq_some_iff.mp hreceive
          have hrest := (Journal.after_of_after_cons hc).2.2
          rw [← hrest] at hreceive hwalk
          rw [reach_of_after_cons hc]
          exact ih (h.deliver hc hwalk.1 ht) (hwalk.2 t ht) hreceive

theorem watermarks_of_receiveAll {entries : List (Entry κ δ φ τ β)}
    (h : s.receiveAll digest entries = some s') : s'.watermarks = s.watermarks := by
  induction entries generalizing s with
  | nil =>
      obtain rfl : s = s' := by simpa [receiveAll] using h
      rfl
  | cons e rest ih =>
      rw [receiveAll_cons] at h
      obtain ⟨t, ht, hrest⟩ := Option.bind_eq_some_iff.mp h
      exact (ih hrest).trans (received_of_receive ht).watermarks

/-- A bundle whose entries settle is journaled without the changes that the
receiver made itself. -/
theorem journal_of_receiveAll {entries : List (Entry κ δ φ τ β)} {w : ℤ}
    (hwalk : Walk digest (Settles b p w) s entries) (h : s.receiveAll digest entries = some s') :
    s.journal.Prolongs s'.journal ∧
      (∀ c ∈ s'.journal.rows, s.journal.sequence < c.journalId → c.origin ≠ b) ∧
      ((∀ e ∈ entries, e.origin = b) → s'.journal.sequence = s.journal.sequence) := by
  induction entries generalizing s with
  | nil =>
      obtain rfl : s = s' := by simpa [receiveAll] using h
      exact ⟨.refl _, fun c hc hlt ↦ absurd (s.journal.bound c hc) (not_le.mpr hlt), fun _ ↦ rfl⟩
  | cons e rest ih =>
      rw [receiveAll_cons] at h
      obtain ⟨t, ht, hrest⟩ := Option.bind_eq_some_iff.mp h
      obtain ⟨hprolongs, hforeign, hquiet⟩ := ih (hwalk.2 t ht) hrest
      have hreceived := (received_of_receive ht).journal
      cases happlies : (s.outcomeOf e).applies with
      | false =>
          rw [happlies, if_neg Bool.false_ne_true] at hreceived
          rw [hreceived] at hprolongs hforeign hquiet
          exact ⟨hprolongs, hforeign, fun hall ↦ hquiet fun e' he' ↦ hall e' (.tail _ he')⟩
      | true =>
          rw [happlies, if_pos rfl] at hreceived
          have horigin : e.origin ≠ b := fun hb ↦ by
            rw [hwalk.1.1 hb] at happlies
            cases happlies
          have happended := Journal.prolongs_append s.journal e.object e.origin (e.stamp digest)
            e.tombstone e.changedAt
          rw [← hreceived] at happended
          refine ⟨happended.trans hprolongs, fun c hc hlt ↦ ?_, fun hall ↦ ?_⟩
          · rcases hprolongs.rows c hc with hmem | hnew
            · rw [hreceived, Journal.rows_append] at hmem
              rcases List.mem_append.mp hmem with hold | hlast
              · exact absurd (s.journal.bound c hold) (not_le.mpr hlt)
              · rw [List.mem_singleton.mp hlast]
                exact horigin
            · exact hforeign c hc hnew
          · exact absurd (hall e List.mem_cons_self) horigin

/-! ## Bundles and acknowledgements -/

/-- Device `a` exports a bundle for device `b`, with what it has imported itself.
Device `b` imports the bundle and takes this for an acknowledgement, or does neither. -/
def exchange (digest : Digest β φ) (a b : δ) (limit : ℕ) (p s : Replica κ δ φ τ β) :
    Replica κ δ φ τ β :=
  let entries := p.exportEntries b limit
  ((s.importEntries digest a entries (p.upTo b entries)).map fun s' ↦
    s'.acknowledge a (p.watermarks.imported b)).getD s

/-- Two replicas, each of which has imported what it has acknowledged, and maybe more. -/
structure Paired (digest : Digest β φ) (a b : δ) (p s : Replica κ δ φ τ β) : Prop where
  connected : Connected digest a b p s (s.watermarks.imported a) (p.watermarks.imported b)
  leftAcked : 0 ≤ p.watermarks.acked b ∧ p.watermarks.acked b ≤ s.watermarks.imported a
  rightAcked : 0 ≤ s.watermarks.acked a ∧ s.watermarks.acked a ≤ p.watermarks.imported b

omit [DecidableEq φ] [LinearOrder τ] in
/-- Two replicas that hold nothing yet and know of nobody. -/
theorem paired_empty (hp : p.self = some a) (hs : s.self = some b)
    (hpjournal : p.journal = Journal.empty) (hsjournal : s.journal = Journal.empty)
    (hprow : ∀ k, p.row k = none) (hsrow : ∀ k, s.row k = none)
    (hpwatermarks : p.watermarks = Table.empty _) (hswatermarks : s.watermarks = Table.empty _) :
    Paired digest a b p s := by
  have himported : ∀ {r : Replica κ δ φ τ β}, r.watermarks = Table.empty _ → ∀ peer,
      r.watermarks.imported peer = 0 ∧ r.watermarks.acked peer = 0 := by
    intro r hwatermarks peer
    rw [hwatermarks]
    exact ⟨rfl, rfl⟩
  have hsound : ∀ {own other : δ} {r : Replica κ δ φ τ β} {w : ℤ}, r.self = some own →
      r.journal = Journal.empty → w = 0 → Sound digest own other r w := by
    rintro own other r w hself hjournal rfl
    refine ⟨hself, ?_, ?_, ?_, ?_⟩
    · simp [hjournal, Journal.empty]
    · simp [hjournal, Journal.empty, Journal.history]
    · simp [hjournal, Journal.empty]
    · simp [hjournal, Journal.empty]
  have hmatched : ∀ {r : Replica κ δ φ τ β}, r.journal = Journal.empty → (∀ k, r.row k = none) →
      ∀ k, Matched digest r k := by
    intro r hjournal hrow k
    rw [Matched, hjournal]
    exact hrow k
  have hleft := himported hpwatermarks b
  have hright := himported hswatermarks a
  refine ⟨⟨hsound hp hpjournal hright.1, hsound hs hsjournal hleft.1, ?_, ?_, ?_⟩, ?_, ?_⟩
  · exact fun k ↦ .inl (by rw [hpjournal, hsjournal])
  · exact fun k ↦ .inl (hmatched hpjournal hprow k)
  · exact fun k ↦ .inl (hmatched hsjournal hsrow k)
  · rw [hleft.2, hright.1]
    exact ⟨le_rfl, le_rfl⟩
  · rw [hright.2, hleft.1]
    exact ⟨le_rfl, le_rfl⟩

omit [LinearOrder τ] [DecidableEq φ] in
theorem Paired.symm (h : Paired digest a b p s) : Paired digest b a s p :=
  ⟨h.connected.symm, h.rightAcked, h.leftAcked⟩

omit [LinearOrder τ] in
/-- A local write keeps the invariant of the two replicas. -/
theorem Paired.edit (h : Paired digest a b p s) (hdigest : digest.Marks) (k : κ)
    (row : Option β) (changedAt : τ) : Paired digest a b (p.edit digest k row changedAt) s where
  connected := h.connected.edit hdigest k row changedAt
  leftAcked := h.leftAcked
  rightAcked := h.rightAcked

theorem exchange_of_refused {limit : ℕ}
    (h : s.receiveAll digest (p.exportEntries b limit) = none) :
    exchange digest a b limit p s = s := by
  simp only [exchange, importEntries, h, Option.map_none, Option.getD_none]

theorem exchange_of_accepted {limit : ℕ} {r : Replica κ δ φ τ β}
    (h : s.receiveAll digest (p.exportEntries b limit) = some r) :
    exchange digest a b limit p s =
      (compact { r with
        watermarks := r.watermarks.markImported a
          (reach p (p.watermarks.acked b) limit) }).acknowledge a (p.watermarks.imported b) := by
  simp only [exchange, importEntries, h, Option.map_some, Option.getD_some, upTo_exportEntries]

/-- What an accepted bundle does to the receiver. -/
structure Heard (a b : δ) (limit : ℕ) (p s s' : Replica κ δ φ τ β) : Prop where
  imported : s'.watermarks.imported a = reach p (p.watermarks.acked b) limit
  acked : s'.watermarks.acked a = p.watermarks.imported b
  prolongs : s.journal.Prolongs s'.journal
  foreign : ∀ c ∈ s'.journal.rows, s.journal.sequence < c.journalId → c.origin ≠ b
  quiet : (∀ c ∈ p.journal.after (p.watermarks.acked b), c.origin = b) →
    s'.journal.sequence = s.journal.sequence

/-- An accepted bundle is delivered change by change; then the receiver compacts its
journal, and takes the acknowledgement. -/
theorem Paired.accept (h : Paired digest a b p s) {limit : ℕ} {r : Replica κ δ φ τ β}
    (hwalk : Walk digest (Settles b p (p.watermarks.imported b)) s (p.exportEntries b limit))
    (hreceive : s.receiveAll digest (p.exportEntries b limit) = some r) :
    Paired digest a b p (exchange digest a b limit p s) ∧
      Heard a b limit p s (exchange digest a b limit p s) := by
  have hconnected := (h.connected.lower h.leftAcked.2).deliverAll limit hwalk hreceive
  have hwatermarks := watermarks_of_receiveAll hreceive
  obtain ⟨hprolongs, hforeign, hquiet⟩ := journal_of_receiveAll hwalk hreceive
  have hnonneg : 0 ≤ p.watermarks.imported b := h.rightAcked.1.trans h.rightAcked.2
  rw [exchange_of_accepted hreceive]
  set up := reach p (p.watermarks.acked b) limit with hup
  set marked : Replica κ δ φ τ β :=
    { r with watermarks := r.watermarks.markImported a up } with hmarked
  have hmarkedAcked : marked.watermarks.acked a = s.watermarks.acked a := by
    rw [hmarked, Watermarks.acked_markImported, hwatermarks]
  have hbound : marked.watermarks.minAcked ≤ p.watermarks.imported b := by
    refine (Watermarks.minAcked_le_acked ?_).trans (hmarkedAcked.le.trans h.rightAcked.2)
    rw [hmarked, Watermarks.get_markImported_self]
    rfl
  have himported : (marked.compact.acknowledge a (p.watermarks.imported b)).watermarks.imported a =
      up := by
    simp [acknowledge, compact, hmarked]
  have hacked : (marked.compact.acknowledge a (p.watermarks.imported b)).watermarks.acked a =
      p.watermarks.imported b := by
    rw [acknowledge, Watermarks.acked_acknowledge_self hnonneg]
    change max (marked.watermarks.acked a) _ = _
    rw [hmarkedAcked]
    exact max_eq_right h.rightAcked.2
  constructor
  · refine ⟨?_, ?_, ?_⟩
    · rw [himported]
      exact hconnected.compact hbound rfl rfl rfl
    · rw [himported]
      exact ⟨h.leftAcked.1, le_reach p _ limit⟩
    · rw [hacked]
      exact ⟨hnonneg, le_rfl⟩
  · refine ⟨himported, hacked, ?_, fun c hc ↦ ?_, fun hall ↦ ?_⟩
    · exact hprolongs.trans (Journal.prolongs_compact r.journal _)
    · exact hforeign c (Iff.mp Journal.mem_compact hc).1
    · refine hquiet fun e he ↦ ?_
      obtain ⟨c, hc, rfl⟩ := List.mem_map.mp he
      exact hall c (List.mem_of_mem_take hc)

/-- An exchange keeps the invariant of the two replicas. -/
theorem Paired.exchange (h : Paired digest a b p s) {limit : ℕ}
    (hwalk : Walk digest (Settles b p (p.watermarks.imported b)) s (p.exportEntries b limit)) :
    Paired digest a b p (exchange digest a b limit p s) := by
  cases hreceive : s.receiveAll digest (p.exportEntries b limit) with
  | none => rwa [exchange_of_refused hreceive]
  | some r => exact (h.accept hwalk hreceive).1

/-! ## What is still to be acknowledged -/

/-- The changes after a watermark, up to a bound. -/
def due (r : Replica κ δ φ τ β) (w bound : ℤ) : List (Change κ δ φ τ) :=
  (r.journal.after w).filter fun c ↦ c.journalId ≤ bound

omit [DecidableEq κ] [LinearOrder δ] [DecidableEq φ] [LinearOrder τ] in
theorem mem_due {r : Replica κ δ φ τ β} {w bound : ℤ} {c : Change κ δ φ τ} :
    c ∈ r.due w bound ↔ c ∈ r.journal.rows ∧ w < c.journalId ∧ c.journalId ≤ bound := by
  rw [due, Journal.after, List.mem_filter, List.mem_filter, decide_eq_true_eq, decide_eq_true_eq,
    and_assoc]

omit [DecidableEq κ] [LinearOrder δ] [DecidableEq φ] [LinearOrder τ] in
theorem nodup_due (r : Replica κ δ φ τ β) (w bound : ℤ) : (r.due w bound).Nodup := by
  refine ((r.journal.ids.imp ?_ : r.journal.rows.Nodup).filter _).filter _
  rintro c _ hlt rfl
  exact lt_irrefl _ hlt

section Due

variable {r r' : Replica κ δ φ τ β} {w w' bound : ℤ}

omit [DecidableEq κ] [LinearOrder δ] [DecidableEq φ] [LinearOrder τ] in
theorem due_subset (hjournal : r.journal.Prolongs r'.journal) (hw : w ≤ w')
    (hbound : bound ≤ r.journal.sequence) : r'.due w' bound ⊆ r.due w bound := by
  intro c hc
  obtain ⟨hmem, hlt, hle⟩ := Iff.mp mem_due hc
  exact Iff.mpr mem_due ⟨hjournal.mem hmem (hle.trans hbound), hw.trans_lt hlt, hle⟩

omit [DecidableEq κ] [LinearOrder δ] [DecidableEq φ] [LinearOrder τ] in
/-- No change becomes due that was there before. -/
theorem length_due_le (hjournal : r.journal.Prolongs r'.journal) (hw : w ≤ w')
    (hbound : bound ≤ r.journal.sequence) : (r'.due w' bound).length ≤ (r.due w bound).length :=
  ((nodup_due r' w' bound).subperm (due_subset hjournal hw hbound)).length_le

omit [DecidableEq κ] [LinearOrder δ] [DecidableEq φ] [LinearOrder τ] in
/-- One that the watermark passes is due no longer. -/
theorem length_due_lt (hjournal : r.journal.Prolongs r'.journal) (hw : w ≤ w')
    (hbound : bound ≤ r.journal.sequence) {c : Change κ δ φ τ} (hc : c ∈ r.due w bound)
    (hpassed : c.journalId ≤ w') : (r'.due w' bound).length < (r.due w bound).length := by
  have hgone : c ∉ r'.due w' bound := fun hmem ↦
    absurd (Iff.mp mem_due hmem).2.1 (not_lt.mpr hpassed)
  refine (((nodup_due r' w' bound).cons hgone).subperm ?_).length_le
  exact List.cons_subset.mpr ⟨hc, due_subset hjournal hw hbound⟩

end Due

end Replica

/-! ## Sending in both directions -/

open Replica

variable {κ δ φ τ β : Type*} [DecidableEq κ] [LinearOrder δ] [DecidableEq φ] [LinearOrder τ]

/-- A bundle of at most this many changes, from the left or from the right of
two replicas. -/
inductive Send where
  | left (limit : ℕ)
  | right (limit : ℕ)

namespace Send

def limit : Send → ℕ
  | left n | right n => n

def swap : Send → Send
  | left n => right n
  | right n => left n

variable (digest : Digest β φ) (a b : δ)

def apply (t : Replica κ δ φ τ β × Replica κ δ φ τ β) :
    Send → Replica κ δ φ τ β × Replica κ δ φ τ β
  | left n => (t.1, exchange digest a b n t.1 t.2)
  | right n => (exchange digest b a n t.2 t.1, t.2)

/-- Every entry of the bundle settles at the receiver. -/
def Settles (t : Replica κ δ φ τ β × Replica κ δ φ τ β) : Send → Prop
  | left n => Walk digest (Replica.Settles b t.1 (t.1.watermarks.imported b)) t.2
      (t.1.exportEntries b n)
  | right n => Walk digest (Replica.Settles a t.2 (t.2.watermarks.imported a)) t.1
      (t.2.exportEntries a n)

/-- The receiver accepts the bundle. -/
def Importable (t : Replica κ δ φ τ β × Replica κ δ φ τ β) : Send → Prop
  | left n => Replica.Importable digest t.2 (t.1.exportEntries b n)
  | right n => Replica.Importable digest t.1 (t.2.exportEntries a n)

end Send

/-- Two replicas that go on sending each other bundles that settle, each of them
being heard again and again. -/
structure Conversation (digest : Digest β φ) (a b : δ)
    (states : ℕ → Replica κ δ φ τ β × Replica κ δ φ τ β) (sends : ℕ → Send) : Prop where
  start : Paired digest a b (states 0).1 (states 0).2
  step : ∀ n, states (n + 1) = (sends n).apply digest a b (states n)
  settles : ∀ n, (sends n).Settles digest a b (states n)
  limit : ∀ n, 0 < (sends n).limit
  left : ∀ n, ∃ m ≥ n, ∃ limit, sends m = .left limit ∧
    (sends m).Importable digest a b (states m)
  right : ∀ n, ∃ m ≥ n, ∃ limit, sends m = .right limit ∧
    (sends m).Importable digest a b (states m)

namespace Conversation

variable {digest : Digest β φ} {a b : δ} {states : ℕ → Replica κ δ φ τ β × Replica κ δ φ τ β}
  {sends : ℕ → Send}

theorem paired (h : Conversation digest a b states sends) (n : ℕ) :
    Paired digest a b (states n).1 (states n).2 := by
  induction n with
  | zero => exact h.start
  | succ n ih =>
      have hsettles := h.settles n
      rw [h.step]
      cases hsend : sends n with
      | left limit =>
          rw [hsend] at hsettles
          exact ih.exchange hsettles
      | right limit =>
          rw [hsend] at hsettles
          exact (ih.symm.exchange hsettles).symm

theorem swap (h : Conversation digest a b states sends) :
    Conversation digest b a (fun n ↦ (states n).swap) fun n ↦ (sends n).swap := by
  refine ⟨h.start.symm, fun n ↦ ?_, fun n ↦ ?_, fun n ↦ ?_, fun n ↦ ?_, fun n ↦ ?_⟩
  · rw [h.step]
    cases sends n <;> rfl
  · have hsettles := h.settles n
    cases hsend : sends n <;> rw [hsend] at hsettles <;> exact hsettles
  · have hlimit := h.limit n
    cases hsend : sends n <;> rw [hsend] at hlimit <;> exact hlimit
  · obtain ⟨m, hm, limit, hsend, himportable⟩ := h.right n
    rw [hsend] at himportable
    exact ⟨m, hm, limit, by rw [hsend]; rfl, by rw [hsend]; exact himportable⟩
  · obtain ⟨m, hm, limit, hsend, himportable⟩ := h.left n
    rw [hsend] at himportable
    exact ⟨m, hm, limit, by rw [hsend]; rfl, by rw [hsend]; exact himportable⟩

/-- What comes later is a conversation, too. -/
theorem later (h : Conversation digest a b states sends) (N : ℕ) :
    Conversation digest a b (fun n ↦ states (N + n)) fun n ↦ sends (N + n) := by
  have hagain : ∀ {P : ℕ → Prop}, (∀ n, ∃ m ≥ n, P m) → ∀ n, ∃ m ≥ n, P (N + m) := by
    intro P hP n
    obtain ⟨m, hm, hholds⟩ := hP (N + n)
    obtain ⟨k, rfl⟩ := Nat.exists_eq_add_of_le ((Nat.le_add_right N n).trans hm)
    exact ⟨k, Nat.le_of_add_le_add_left hm, hholds⟩
  exact ⟨h.paired N, fun n ↦ h.step (N + n), fun n ↦ h.settles (N + n), fun n ↦ h.limit (N + n),
    hagain h.left, hagain h.right⟩

/-! ### The left replica -/

/-- A bundle from the right leaves the left replica as it is, or is heard. -/
theorem right_cases (h : Conversation digest a b states sends) {n limit : ℕ}
    (hsend : sends n = .right limit) : (states (n + 1)).2 = (states n).2 ∧
      (((states (n + 1)).1 = (states n).1 ∧
          ¬(sends n).Importable digest a b (states n)) ∨
        Heard b a limit (states n).2 (states n).1 (states (n + 1)).1) := by
  have hsettles := h.settles n
  rw [h.step, hsend]
  rw [hsend] at hsettles
  refine ⟨rfl, ?_⟩
  cases hreceive : (states n).1.receiveAll digest ((states n).2.exportEntries a limit) with
  | none =>
      refine .inl ⟨exchange_of_refused hreceive, fun himportable ↦ ?_⟩
      have hsome := Iff.mpr receiveAll_isSome_iff himportable
      rw [hreceive] at hsome
      cases hsome
  | some r => exact .inr ((h.paired n).symm.accept hsettles hreceive).2

/-- A bundle from the left does nothing to the left replica. -/
theorem left_cases (h : Conversation digest a b states sends) {n limit : ℕ}
    (hsend : sends n = .left limit) : (states (n + 1)).1 = (states n).1 ∧
      ((states (n + 1)).2 = (states n).2 ∨
        Heard a b limit (states n).1 (states n).2 (states (n + 1)).2) := by
  have hswapped : (sends n).swap = .right limit := by rw [hsend]; rfl
  obtain ⟨hsame, hheard⟩ := h.swap.right_cases hswapped
  exact ⟨hsame, hheard.imp_left And.left⟩

theorem prolongs (h : Conversation digest a b states sends) (n : ℕ) :
    (states n).1.journal.Prolongs (states (n + 1)).1.journal := by
  cases hsend : sends n with
  | left limit =>
      rw [(h.left_cases hsend).1]
      exact .refl _
  | right limit =>
      rcases (h.right_cases hsend).2 with ⟨hsame, -⟩ | hheard
      · rw [hsame]
        exact .refl _
      · exact hheard.prolongs

theorem acked_le (h : Conversation digest a b states sends) (n : ℕ) :
    (states n).1.watermarks.acked b ≤ (states (n + 1)).1.watermarks.acked b := by
  cases hsend : sends n with
  | left limit => rw [(h.left_cases hsend).1]
  | right limit =>
      rcases (h.right_cases hsend).2 with ⟨hsame, -⟩ | hheard
      · rw [hsame]
      · rw [hheard.acked]
        exact (h.paired n).leftAcked.2

theorem sequence_le (h : Conversation digest a b states sends) (n : ℕ) :
    (states 0).1.journal.sequence ≤ (states n).1.journal.sequence := by
  induction n with
  | zero => exact le_rfl
  | succ n ih => exact ih.trans (h.prolongs n).sequence

/-- How many of the first changes of the left replica are not yet acknowledged. -/
def owed (b : δ) (states : ℕ → Replica κ δ φ τ β × Replica κ δ φ τ β) (n : ℕ) : ℕ :=
  ((states n).1.due ((states n).1.watermarks.acked b) (states 0).1.journal.sequence).length

theorem owed_antitone (h : Conversation digest a b states sends) : Antitone (owed b states) :=
  antitone_nat_of_succ_le fun n ↦
    length_due_le (h.prolongs n) (h.acked_le n) (h.sequence_le n)

/-- The right replica has imported the next change to be acknowledged. -/
def Covered (a b : δ) (t : Replica κ δ φ τ β × Replica κ δ φ τ β) : Prop :=
  ∀ c rest, t.1.journal.after (t.1.watermarks.acked b) = c :: rest →
    c.journalId ≤ t.2.watermarks.imported a

theorem covered_of_left (h : Conversation digest a b states sends) {n limit : ℕ}
    (hsend : sends n = .left limit)
    (hheard : Heard a b limit (states n).1 (states n).2 (states (n + 1)).2) :
    Covered a b (states (n + 1)) := by
  intro c rest hc
  have hlimit := h.limit n
  rw [hsend] at hlimit
  obtain ⟨m, rfl⟩ := Nat.exists_eq_add_one_of_ne_zero (Nat.ne_of_gt hlimit)
  rw [(h.left_cases hsend).1] at hc
  rw [hheard.imported, reach_of_after_cons hc]
  exact le_reach _ _ m

/-- What is covered is acknowledged with the next bundle from the right that is heard. -/
theorem owed_lt_or_covered (h : Conversation digest a b states sends) {n : ℕ}
    (hcovered : Covered a b (states n)) (howed : owed b states n ≠ 0) :
    owed b states (n + 1) < owed b states n ∨ Covered a b (states (n + 1)) ∧
      ∀ limit, sends n = .right limit → ¬(sends n).Importable digest a b (states n) := by
  cases hsend : sends n with
  | left limit =>
      refine .inr ⟨?_, fun _ hright ↦ by cases hright⟩
      obtain ⟨hsame, hkept | hheard⟩ := h.left_cases hsend
      · rw [Covered, hsame, hkept]
        exact hcovered
      · exact h.covered_of_left hsend hheard
  | right limit =>
      obtain ⟨hsame, ⟨hkept, hrefused⟩ | hheard⟩ := h.right_cases hsend
      · rw [hsend] at hrefused
        refine .inr ⟨?_, fun _ _ ↦ hrefused⟩
        rw [Covered, hsame, hkept]
        exact hcovered
      · -- the first change after the watermark is among those that are owed
        left
        obtain ⟨d, hd⟩ := List.exists_mem_of_length_pos (Nat.pos_of_ne_zero howed)
        obtain ⟨hdrows, hdafter, hdbound⟩ := Iff.mp mem_due hd
        cases hafter : (states n).1.journal.after ((states n).1.watermarks.acked b) with
        | nil =>
            have hmem : d ∈ (states n).1.journal.after ((states n).1.watermarks.acked b) := by
              simpa [Journal.after] using ⟨hdrows, hdafter⟩
            rw [hafter] at hmem
            cases hmem
        | cons c rest =>
            obtain ⟨hcrows, hcafter, hrest⟩ := Journal.after_of_after_cons hafter
            have hle : c.journalId ≤ d.journalId := by
              by_contra! hlt
              have hmem : d ∈ c :: rest := by
                rw [← hafter]
                simpa [Journal.after] using ⟨hdrows, hdafter⟩
              rcases List.mem_cons.mp hmem with rfl | hmem
              · exact lt_irrefl _ hlt
              · rw [← hrest, Journal.after, List.mem_filter] at hmem
                exact absurd (of_decide_eq_true hmem.2) (not_lt.mpr hlt.le)
            refine length_due_lt (h.prolongs n) (h.acked_le n) (h.sequence_le n)
              (Iff.mpr mem_due ⟨hcrows, hcafter, hle.trans hdbound⟩) ?_
            rw [hheard.acked]
            exact hcovered c rest hafter

/-- The first changes of the left replica are acknowledged in the end. -/
theorem eventually_owed_eq_zero (h : Conversation digest a b states sends) :
    ∃ N, ∀ n ≥ N, owed b states n = 0 := by
  obtain ⟨N, hN⟩ : ∃ N, ∀ n, owed b states N ≤ owed b states n :=
    ⟨_, fun n ↦ Function.argmin_le (owed b states) n⟩
  have hzero : owed b states N = 0 := by
    by_contra hne
    have hstays : ∀ k, ¬owed b states (N + k + 1) < owed b states (N + k) := by
      intro k
      have hle := h.owed_antitone (Nat.le_add_right N k)
      have := hN (N + k + 1)
      omega
    have hpositive : ∀ k, owed b states (N + k) ≠ 0 := by
      intro k
      have := hN (N + k)
      omega
    obtain ⟨m, hm, limit, hsend, himportable⟩ := h.left N
    obtain ⟨k, rfl⟩ := Nat.exists_eq_add_of_le hm
    have hheard := (h.swap.right_cases (n := N + k) (by rw [hsend]; rfl)).2.resolve_left fun hkept ↦
      hkept.2 (by rw [hsend] at himportable ⊢; exact himportable)
    have hcovered : ∀ i, Covered a b (states (N + k + 1 + i)) := by
      intro i
      induction i with
      | zero => exact h.covered_of_left hsend hheard
      | succ i ih =>
          have hcase := h.owed_lt_or_covered ih
            (by simpa [Nat.add_assoc] using hpositive (k + 1 + i))
          exact (hcase.resolve_left (by simpa [Nat.add_assoc] using hstays (k + 1 + i))).1
    obtain ⟨m', hm', limit', hsend', himportable'⟩ := h.right (N + k + 1)
    obtain ⟨i, rfl⟩ := Nat.exists_eq_add_of_le hm'
    have hcase := h.owed_lt_or_covered (hcovered i)
      (by simpa [Nat.add_assoc] using hpositive (k + 1 + i))
    exact (hcase.resolve_left (by simpa [Nat.add_assoc] using hstays (k + 1 + i))).2 limit' hsend'
      himportable'
  exact ⟨N, fun n hn ↦ Nat.le_zero.mp (hzero ▸ h.owed_antitone hn)⟩

/-- Nothing that the left replica made itself is added to its journal. -/
theorem foreign (h : Conversation digest a b states sends) (n : ℕ) :
    ∀ c ∈ (states n).1.journal.rows, (states 0).1.journal.sequence < c.journalId →
      c.origin = b := by
  induction n with
  | zero => exact fun c hc hlt ↦ absurd ((states 0).1.journal.bound c hc) (not_le.mpr hlt)
  | succ n ih =>
      intro c hc hlt
      rcases (h.prolongs n).rows c hc with hold | hnew
      · exact ih c hold hlt
      · refine ((h.paired (n + 1)).connected.left.origins c hc).resolve_left ?_
        cases hsend : sends n with
        | left limit =>
            rw [(h.left_cases hsend).1] at hc
            exact absurd ((states n).1.journal.bound c hc) (not_le.mpr hnew)
        | right limit =>
            rcases (h.right_cases hsend).2 with ⟨hsame, -⟩ | hheard
            · rw [hsame] at hc
              exact absurd ((states n).1.journal.bound c hc) (not_le.mpr hnew)
            · exact hheard.foreign c hc hnew

/-- In the end the left replica has only changes to send that it has received. -/
theorem eventually_foreign (h : Conversation digest a b states sends) :
    ∃ N, ∀ n ≥ N, ∀ c ∈ (states n).1.journal.after ((states n).1.watermarks.acked b),
      c.origin = b := by
  obtain ⟨N, hN⟩ := h.eventually_owed_eq_zero
  refine ⟨N, fun n hn c hc ↦ ?_⟩
  obtain ⟨hmem, hafter⟩ := List.mem_filter.mp hc
  refine h.foreign n c hmem ?_
  by_contra! hle
  have hdue := List.eq_nil_of_length_eq_zero (hN n hn)
  have hin := Iff.mpr (mem_due (r := (states n).1)) ⟨hmem, of_decide_eq_true hafter, hle⟩
  rw [hdue] at hin
  cases hin

/-- Where the right replica only has such changes to send, the left one has
nothing to send in the end. -/
theorem eventually_nil (h : Conversation digest a b states sends)
    (hright : ∀ n, ∀ c ∈ (states n).2.journal.after ((states n).2.watermarks.acked a),
      c.origin = a) :
    ∃ N, ∀ n ≥ N, (states n).1.journal.after ((states n).1.watermarks.acked b) = [] := by
  have hsequence : ∀ n, (states n).1.journal.sequence = (states 0).1.journal.sequence := by
    intro n
    induction n with
    | zero => rfl
    | succ n ih =>
        cases hsend : sends n with
        | left limit => rw [(h.left_cases hsend).1, ih]
        | right limit =>
            rcases (h.right_cases hsend).2 with ⟨hsame, -⟩ | hheard
            · rw [hsame, ih]
            · rw [hheard.quiet (hright n), ih]
  obtain ⟨N, hN⟩ := h.eventually_owed_eq_zero
  refine ⟨N, fun n hn ↦ List.eq_nil_iff_forall_not_mem.mpr fun c hc ↦ ?_⟩
  obtain ⟨hmem, hafter⟩ := List.mem_filter.mp hc
  have hin := Iff.mpr (mem_due (r := (states n).1))
    ⟨hmem, of_decide_eq_true hafter, (hsequence n).le.trans' ((states n).1.journal.bound c hmem)⟩
  have hdue := List.eq_nil_of_length_eq_zero (hN n hn)
  rw [hdue] at hin
  cases hin

/-- The two replicas come to have the same rows and keep them. -/
theorem converge (h : Conversation digest a b states sends)
    (hdigest : ∀ n k, ∀ r ∈ (states n).1.row k, ∀ r' ∈ (states n).2.row k,
      digest.row r = digest.row r' → r = r') :
    ∃ N, ∀ n ≥ N, ∀ k, (states n).1.row k = (states n).2.row k := by
  obtain ⟨N₁, hleft⟩ := h.eventually_foreign
  obtain ⟨N₂, hright⟩ := h.swap.eventually_foreign
  have hlater := h.later (max N₁ N₂)
  obtain ⟨N₃, hleftNil⟩ := hlater.eventually_nil fun n c hc ↦
    hright _ ((le_max_right N₁ N₂).trans (Nat.le_add_right _ n)) c hc
  obtain ⟨N₄, hrightNil⟩ := hlater.swap.eventually_nil fun n c hc ↦
    hleft _ ((le_max_left N₁ N₂).trans (Nat.le_add_right _ n)) c hc
  refine ⟨max N₁ N₂ + max N₃ N₄, fun n hn k ↦ ?_⟩
  obtain ⟨m, rfl⟩ := Nat.exists_eq_add_of_le ((Nat.le_add_right _ _).trans hn)
  have hm : max N₃ N₄ ≤ m := Nat.le_of_add_le_add_left hn
  have hpaired := h.paired (max N₁ N₂ + m)
  have hempty : ∀ {r : Replica κ δ φ τ β} {w w' : ℤ}, r.journal.after w = [] → w ≤ w' →
      r.journal.after w' = [] := by
    intro r w w' hnil hle
    refine List.filter_eq_nil_iff.mpr fun c hc hlt ↦ ?_
    exact List.filter_eq_nil_iff.mp hnil c hc
      (decide_eq_true (hle.trans_lt (of_decide_eq_true hlt)))
  exact hpaired.connected.row_eq
    (hempty (hleftNil m ((le_max_left _ _).trans hm)) hpaired.leftAcked.2)
    (hempty (hrightNil m ((le_max_right _ _).trans hm)) hpaired.rightAcked.2) k (hdigest _ k)

end Conversation

end Replication
