import Cortana.Consolidation.Policy
import Cortana.Core.Runs

/-!
# The consolidation queue

`ConsolidationQueue`: a bounded queue in memory with the statuses of all keys
it has seen, and its runs with workers that pop items, retry them or finish.
-/

namespace Cortana

inductive QueueStatus where
  | queued
  | running
  | retry
  | deadLetter
  | paused
  | cancelled
  | complete
deriving DecidableEq

structure QueueItem where
  candidateId : String
  policyVersion : String
  priority : ℕ
  attempts : ℕ
  status : QueueStatus
deriving DecidableEq

namespace QueueItem

/-- What the queue deduplicates by. -/
def pair (item : QueueItem) : String × String := (item.policyVersion, item.candidateId)

/-- The higher priority goes first, then the smaller candidate id. -/
def Precedes (a b : QueueItem) : Prop :=
  b.priority < a.priority ∨ (b.priority = a.priority ∧ a.candidateId ≤ b.candidateId)

instance : DecidableRel Precedes := fun a b ↦
  inferInstanceAs (Decidable (b.priority < a.priority ∨
    (b.priority = a.priority ∧ a.candidateId ≤ b.candidateId)))

/-- The statuses in which `cancel` finds an item. -/
def Cancellable (item : QueueItem) : Prop :=
  item.status = .queued ∨ item.status = .retry ∨ item.status = .paused

instance (item : QueueItem) : Decidable item.Cancellable :=
  inferInstanceAs (Decidable (_ ∨ _ ∨ _))

end QueueItem

structure ConsolidationQueue where
  maxItems : ℕ
  maxRetries : ℕ
  paused : Bool
  items : List QueueItem
  seen : String → Option QueueStatus

/-- The key of a candidate in `seen`. -/
def queueKey (pair : String × String) : String := pair.1 ++ ":" ++ pair.2

namespace ConsolidationQueue

/-- `new`. -/
def new (policy : ConsolidationPolicy) : Except String ConsolidationQueue := do
  policy.validate
  return ⟨policy.maxQueue, policy.maxRetries, false, [], fun _ ↦ none⟩

/-- The items that are not cancelled. -/
def live (queue : ConsolidationQueue) : List QueueItem :=
  queue.items.filter fun item ↦ item.status ≠ .cancelled

/-- `len`. -/
def len (queue : ConsolidationQueue) : ℕ := queue.live.length

/-- Set the status of a key. -/
def mark (queue : ConsolidationQueue) (key : String) (status : QueueStatus) : ConsolidationQueue :=
  { queue with seen := Function.update queue.seen key (some status) }

/-- `push_back`, and the sort after it. -/
def push (queue : ConsolidationQueue) (item : QueueItem) : ConsolidationQueue :=
  { queue with items := (queue.items ++ [item]).insertionSort QueueItem.Precedes }

/-- The statuses of a key under which `enqueue` drops a candidate. -/
def blocks : QueueStatus → Bool
  | .queued | .running | .deadLetter | .cancelled | .complete => true
  | .retry | .paused => false

/-- `enqueue`. -/
def enqueue (queue : ConsolidationQueue) (candidateId policyVersion : String) (priority : ℕ) :
    Except String ConsolidationQueue := do
  Except.require (queue.paused = false) "consolidation queue is paused"
  let key := queueKey (policyVersion, candidateId)
  if (queue.seen key).any blocks then return queue
  else
    Except.require (queue.len < queue.maxItems) "consolidation queue is full"
    return (queue.mark key .queued).push
      ⟨candidateId, policyVersion, max 1 (min priority 8), 0, .queued⟩

/-- `pause`. -/
def pause (queue : ConsolidationQueue) : ConsolidationQueue :=
  let waits (item : QueueItem) : Bool := item.status = .queued ∨ item.status = .retry
  { queue with
    paused := true
    items := queue.items.map fun item ↦
      if waits item then { item with status := .paused } else item
    seen := fun key ↦
      if queue.items.any fun item ↦ waits item && queueKey item.pair == key then some .paused
      else queue.seen key }

/-- `resume`. -/
def resume (queue : ConsolidationQueue) : ConsolidationQueue :=
  let waits (item : QueueItem) : Bool := item.status = .paused
  { queue with
    paused := false
    items := queue.items.map fun item ↦
      if waits item then { item with status := .queued } else item
    seen := fun key ↦
      if queue.items.any fun item ↦ waits item && queueKey item.pair == key then some .queued
      else queue.seen key }

/-- The items after the first one of a candidate that can be cancelled is, and
that item. -/
def cancelFirst (candidateId : String) : List QueueItem → Option (QueueItem × List QueueItem)
  | [] => none
  | item :: rest =>
      if item.candidateId = candidateId ∧ item.Cancellable then
        some (item, { item with status := .cancelled } :: rest)
      else (cancelFirst candidateId rest).map fun p ↦ (p.1, item :: p.2)

/-- `cancel`. -/
def cancel (queue : ConsolidationQueue) (candidateId : String) : ConsolidationQueue × Bool :=
  match cancelFirst candidateId queue.items with
  | some (item, items) =>
      (({ queue with items := items }).mark (queueKey (item.policyVersion, candidateId))
        .cancelled, true)
  | none => (queue, false)

/-- Largest `u32`. -/
def maxU32 : ℕ := 2 ^ 32 - 1

/-- The first item that is not cancelled, and the items after it. -/
def popItems : List QueueItem → Option QueueItem × List QueueItem
  | [] => (none, [])
  | item :: rest =>
      if item.status = .cancelled then popItems rest
      else (some { item with
        status := .running
        attempts := min (item.attempts + 1) maxU32 }, rest)

/-- `pop`. -/
def pop (queue : ConsolidationQueue) : Option QueueItem × ConsolidationQueue :=
  if queue.paused then (none, queue)
  else
    let (item, items) := popItems queue.items
    (item, { queue with items := items })

/-- The queue is paused, and with it an item of the key. -/
def WaitsFor (queue : ConsolidationQueue) (key : String) : Prop :=
  queue.paused = true ∧ ∃ item ∈ queue.items, item.status = .paused ∧ queueKey item.pair = key

/-- `retry`. -/
def retry (queue : ConsolidationQueue) (item : QueueItem) : ConsolidationQueue :=
  let status : QueueStatus := if queue.maxRetries < item.attempts then .deadLetter else .retry
  let queue := queue.mark (queueKey item.pair) status
  if status = .retry then queue.push { item with status := status } else queue

/-! ## What the operations do to the items -/

theorem mem_push {queue : ConsolidationQueue} {item x : QueueItem} :
    x ∈ (queue.push item).items ↔ x ∈ queue.items ∨ x = item := by
  rw [push, (List.perm_insertionSort _ _).mem_iff, List.mem_append, List.mem_singleton]

theorem live_push (queue : ConsolidationQueue) {item : QueueItem} (h : item.status ≠ .cancelled) :
    (queue.push item).live.Perm (queue.live ++ [item]) := by
  rw [live, push, live]
  refine ((List.perm_insertionSort _ _).filter _).trans ?_
  rw [List.filter_append, List.filter_cons_of_pos (by simpa using h), List.filter_nil]

theorem sorted_push (queue : ConsolidationQueue) (item : QueueItem) :
    (queue.push item).items.Pairwise QueueItem.Precedes := by
  have htotal : Std.Total QueueItem.Precedes := by
    refine ⟨fun a b ↦ ?_⟩
    unfold QueueItem.Precedes
    rcases lt_trichotomy a.priority b.priority with h | h | h
    · exact .inr (.inl h)
    · rcases le_total a.candidateId b.candidateId with h' | h'
      · exact .inl (.inr ⟨h.symm, h'⟩)
      · exact .inr (.inr ⟨h, h'⟩)
    · exact .inl (.inl h)
  have htrans : IsTrans QueueItem QueueItem.Precedes := by
    refine ⟨fun a b c hab hbc ↦ ?_⟩
    unfold QueueItem.Precedes at *
    rcases hab with hab | ⟨hab, hle⟩
    · rcases hbc with hbc | ⟨hbc, -⟩
      · exact .inl (by omega)
      · exact .inl (by omega)
    · rcases hbc with hbc | ⟨hbc, hle'⟩
      · exact .inl (by omega)
      · exact .inr ⟨by omega, hle.trans hle'⟩
  exact List.pairwise_insertionSort _ _

/-- `pop` skips the cancelled items and takes the next one. -/
theorem popItems_spec (items : List QueueItem) :
    (popItems items = (none, []) ∧ ∀ x ∈ items, x.status = .cancelled) ∨
      ∃ skipped item rest, items = skipped ++ item :: rest ∧
        (∀ x ∈ skipped, x.status = .cancelled) ∧ item.status ≠ .cancelled ∧
        popItems items = (some { item with
          status := .running
          attempts := min (item.attempts + 1) maxU32 }, rest) := by
  induction items with
  | nil => exact .inl ⟨rfl, by simp⟩
  | cons item rest ih =>
      by_cases hcancelled : item.status = .cancelled
      · rw [popItems, if_pos hcancelled]
        rcases ih with ⟨hnone, hall⟩ | ⟨skipped, x, rest', rfl, hskipped, hx, hpop⟩
        · exact .inl ⟨hnone, by simpa using ⟨hcancelled, hall⟩⟩
        · exact .inr ⟨item :: skipped, x, rest', rfl, by simpa using ⟨hcancelled, hskipped⟩, hx,
            hpop⟩
      · exact .inr ⟨[], item, rest, rfl, by simp, hcancelled, by rw [popItems, if_neg hcancelled]⟩

/-- `cancel` changes the status of one item, or nothing. -/
theorem cancelFirst_spec {candidateId : String} {items items' : List QueueItem}
    {item : QueueItem} (h : cancelFirst candidateId items = some (item, items')) :
    ∃ before after, items = before ++ item :: after ∧ item.candidateId = candidateId ∧
      item.status ≠ .cancelled ∧
      items' = before ++ { item with status := .cancelled } :: after := by
  induction items generalizing items' with
  | nil => cases h
  | cons x rest ih =>
      rw [cancelFirst] at h
      split at h
      next hfound =>
          obtain ⟨rfl, rfl⟩ := Prod.mk.inj (Option.some.inj h)
          refine ⟨[], rest, rfl, hfound.1, ?_, rfl⟩
          rcases hfound.2 with h | h | h <;> simp [h]
      next =>
          obtain ⟨⟨y, rest'⟩, hrest, h⟩ := Option.map_eq_some_iff.mp h
          obtain ⟨rfl, rfl⟩ : y = item ∧ x :: rest' = items' := Prod.mk.inj h
          obtain ⟨before, after, rfl, hid, hstatus, rfl⟩ := ih hrest
          exact ⟨x :: before, after, rfl, hid, hstatus, rfl⟩

/-- A queue that differs in the statuses of some items that are not cancelled. -/
theorem live_map {queue : ConsolidationQueue} {f : QueueItem → QueueItem}
    (hf : ∀ x, (f x).status = .cancelled ↔ x.status = .cancelled) :
    (queue.items.map f).filter (fun item ↦ item.status ≠ .cancelled) = queue.live.map f := by
  rw [List.filter_map, live]
  congr 1
  refine List.filter_congr fun x _ ↦ ?_
  simp [hf x]

end ConsolidationQueue

/-! ## Runs -/

/-- A queue, the items that were popped and are not finished, and, for the
proofs only, the candidates that were popped. -/
structure QueueRun where
  queue : ConsolidationQueue
  running : List QueueItem
  pops : List (String × String)

inductive QueueEvent where
  | enqueue (candidateId policyVersion : String) (priority : ℕ)
  | pop
  | retry (popped : ℕ)
  | finish (popped : ℕ)
  | pause
  | resume
  | cancel (candidateId : String)

namespace QueueRun

open ConsolidationQueue

def start (queue : ConsolidationQueue) : QueueRun := ⟨queue, [], []⟩

/-- One call.  One that fails changes nothing. -/
def next (s : QueueRun) : QueueEvent → QueueRun
  | .enqueue candidateId policyVersion priority =>
      match s.queue.enqueue candidateId policyVersion priority with
      | .ok queue => { s with queue := queue }
      | .error _ => s
  | .pop =>
      let (item, queue) := s.queue.pop
      { queue := queue
        running := s.running ++ item.toList
        pops := s.pops ++ item.toList.map QueueItem.pair }
  | .retry i =>
      match s.running[i]? with
      | some item => { s with queue := s.queue.retry item, running := s.running.eraseIdx i }
      | none => s
  | .finish i => { s with running := s.running.eraseIdx i }
  | .pause => { s with queue := s.queue.pause }
  | .resume => { s with queue := s.queue.resume }
  | .cancel candidateId => { s with queue := (s.queue.cancel candidateId).1 }

def Step (s : QueueRun) (event : QueueEvent) (t : QueueRun) : Prop := t = s.next event

/-- The items that are queued and not cancelled, or popped and not finished. -/
def held (s : QueueRun) : List QueueItem := s.queue.live ++ s.running

/-- The candidate is in the queue or was popped. -/
def Known (s : QueueRun) (pair : String × String) : Prop :=
  pair ∈ s.queue.items.map QueueItem.pair ∨ pair ∈ s.pops

/-- No known candidate whose key is marked for a retry is queued again, and
there is room for an item that is retried. -/
def Careful (s : QueueRun) : QueueEvent → Prop
  | .enqueue candidateId policyVersion _ =>
      s.queue.seen (queueKey (policyVersion, candidateId)) = some .retry →
        ¬ s.Known (policyVersion, candidateId)
  | .retry i => ∀ item ∈ s.running[i]?, item.attempts ≤ s.queue.maxRetries →
      s.queue.len < s.queue.maxItems
  | _ => True

/-- What the queue promises in a state. -/
structure Safe (s : QueueRun) : Prop where
  distinct : (s.held.map QueueItem.pair).Nodup
  bounded : s.queue.len ≤ s.queue.maxItems
  popped : ∀ pair, s.pops.count pair ≤ s.queue.maxRetries + 1
  idle : s.queue.paused = true → s.queue.pop = (none, s.queue)
  ordered : ∀ item queue, s.queue.pop = (some item, queue) →
    ∀ x ∈ queue.live, item.Precedes x

/-- The invariant of a run: besides what is promised, every known key has a
status, a paused key is that of an item that waits for the queue to go on, and
the attempts of an item count how often its candidate was popped. -/
structure Inv (s : QueueRun) : Prop where
  distinct : (s.held.map QueueItem.pair).Nodup
  bounded : s.queue.len ≤ s.queue.maxItems
  popped : ∀ pair, s.pops.count pair ≤ s.queue.maxRetries + 1
  sorted : s.queue.items.Pairwise QueueItem.Precedes
  marked : ∀ pair, s.Known pair → s.queue.seen (queueKey pair) ≠ none
  resumed : ∀ key, s.queue.seen key = some .paused → s.queue.WaitsFor key
  taken : ∀ item ∈ s.running, item.pair ∈ s.pops
  attempts : ∀ item ∈ s.held, item.attempts = s.pops.count item.pair
  retries : ∀ item ∈ s.queue.live, item.attempts ≤ s.queue.maxRetries
  limited : s.queue.maxRetries < maxU32

theorem Inv.safe {s : QueueRun} (h : s.Inv) : s.Safe := by
  refine ⟨h.distinct, h.bounded, h.popped, fun hpaused ↦ ?_, fun item queue hpop ↦ ?_⟩
  · rw [pop, if_pos hpaused]
  · rw [pop] at hpop
    split at hpop
    · cases hpop
    · rcases popItems_spec s.queue.items with ⟨hnone, -⟩ | ⟨skipped, x, rest, hitems, -, -, hfirst⟩
      · rw [hnone] at hpop
        cases hpop
      · rw [hfirst] at hpop
        obtain ⟨hitem, rfl⟩ := Prod.mk.inj hpop
        obtain rfl := Option.some.inj hitem
        intro y hy
        have hsorted := h.sorted
        rw [hitems] at hsorted
        have hrest := (List.pairwise_append.mp hsorted).2.1
        exact (List.pairwise_cons.mp hrest).1 y (List.mem_of_mem_filter hy)

theorem inv_start {policy : ConsolidationPolicy} {queue : ConsolidationQueue}
    (h : ConsolidationQueue.new policy = .ok queue) : (start queue).Inv := by
  obtain ⟨_, hvalid, h⟩ := Iff.mp Except.bind_ok_iff h
  obtain rfl := Iff.mp Except.pure_ok_iff h
  rw [ConsolidationPolicy.validate] at hvalid
  obtain ⟨_, -, hvalid⟩ := Iff.mp Except.bind_ok_iff hvalid
  obtain ⟨_, -, hvalid⟩ := Iff.mp Except.bind_ok_iff hvalid
  obtain ⟨_, -, hvalid⟩ := Iff.mp Except.bind_ok_iff hvalid
  obtain ⟨_, -, hvalid⟩ := Iff.mp Except.bind_ok_iff hvalid
  obtain ⟨_, hretries, -⟩ := Iff.mp Except.bind_ok_iff hvalid
  have hlimited := Iff.mp Except.require_ok_iff hretries
  refine ⟨?_, ?_, ?_, ?_, ?_, ?_, ?_, ?_, ?_, ?_⟩
  · simp [start, held, live]
  · simp [start, len, live]
  · simp [start]
  · simp [start]
  · rintro pair (hmem | hmem)
    · cases hmem
    · cases hmem
  · intro key hkey
    cases hkey
  · simp [start]
  · simp [start, held, live]
  · simp [start, live]
  · exact hlimited.trans_lt (by decide)

theorem seen_mark (queue : ConsolidationQueue) (key key' : String) (status : QueueStatus) :
    (queue.mark key status).seen key' = if key' = key then some status else queue.seen key' :=
  Function.update_apply ..

/-- A candidate that is not known is queued for the first time. -/
theorem Inv.insert {s : QueueRun} (h : s.Inv) {item : QueueItem} (hstatus : item.status = .queued)
    (hattempts : item.attempts = 0) (hnew : ¬ s.Known item.pair)
    (hroom : s.queue.len < s.queue.maxItems) {queue : ConsolidationQueue}
    (hqueue : queue = (s.queue.mark (queueKey item.pair) .queued).push item) :
    Inv { s with queue := queue } := by
  have hseen : ∀ key, queue.seen key =
      if key = queueKey item.pair then some .queued else s.queue.seen key := by
    rw [hqueue]
    exact fun key ↦ seen_mark ..
  have hitems : ∀ x, x ∈ queue.items ↔ x ∈ s.queue.items ∨ x = item := by
    rw [hqueue]
    exact fun x ↦ mem_push
  have hsorted : queue.items.Pairwise QueueItem.Precedes := by
    rw [hqueue]
    exact sorted_push ..
  have hlive : queue.live.Perm (s.queue.live ++ [item]) := by
    rw [hqueue]
    exact live_push _ (by simp [hstatus])
  have hbounds : queue.maxItems = s.queue.maxItems ∧ queue.maxRetries = s.queue.maxRetries ∧
      queue.paused = s.queue.paused := by
    rw [hqueue]
    exact ⟨rfl, rfl, rfl⟩
  obtain ⟨hmaxItems, hmaxRetries, hpaused⟩ := hbounds
  have hheld : (held { s with queue := queue }).Perm (item :: s.held) := by
    refine (hlive.append_right _).trans ?_
    rw [List.append_assoc]
    exact List.perm_middle
  have hcount : s.pops.count item.pair = 0 :=
    List.count_eq_zero.mpr fun hmem ↦ hnew (.inr hmem)
  refine ⟨?_, ?_, ?_, hsorted, ?_, ?_, h.taken, ?_, ?_, ?_⟩
  · rw [(hheld.map _).nodup_iff, List.map_cons, List.nodup_cons]
    refine ⟨fun hmem ↦ ?_, h.distinct⟩
    obtain ⟨x, hx, hpair⟩ := List.mem_map.mp hmem
    rcases List.mem_append.mp hx with hx | hx
    · exact hnew (.inl (List.mem_map.mpr ⟨x, List.mem_of_mem_filter hx, hpair⟩))
    · apply hnew
      rw [← hpair]
      exact .inr (h.taken x hx)
  · change queue.live.length ≤ queue.maxItems
    rw [hlive.length_eq, hmaxItems, List.length_append]
    exact hroom
  · rw [hmaxRetries]
    exact h.popped
  · intro pair hpair
    rw [hseen]
    split
    · exact Option.some_ne_none _
    next hkey =>
        apply h.marked
        rcases hpair with hmem | hmem
        · obtain ⟨x, hx, rfl⟩ := List.mem_map.mp hmem
          rcases (hitems x).mp hx with hx | rfl
          · exact .inl (List.mem_map_of_mem hx)
          · exact absurd rfl hkey
        · exact .inr hmem
  · intro key hkey
    rw [hseen] at hkey
    split at hkey
    · cases hkey
    · obtain ⟨hwaits, x, hx, hrest⟩ := h.resumed key hkey
      exact ⟨hpaused.trans hwaits, x, (hitems x).mpr (.inl hx), hrest⟩
  · intro x hx
    rcases List.mem_cons.mp (hheld.mem_iff.mp hx) with rfl | hx
    · rw [hattempts, hcount]
    · exact h.attempts x hx
  · intro x hx
    rw [hmaxRetries]
    rcases List.mem_append.mp (hlive.mem_iff.mp hx) with hx | hx
    · exact h.retries x hx
    · rw [List.mem_singleton.mp hx, hattempts]
      exact Nat.zero_le _
  · rw [hmaxRetries]
    exact h.limited

theorem Inv.enqueue {s : QueueRun} (h : s.Inv) {candidateId policyVersion : String}
    {priority : ℕ} (hcareful : s.Careful (.enqueue candidateId policyVersion priority)) :
    (s.next (.enqueue candidateId policyVersion priority)).Inv := by
  rw [next]
  split
  next queue hqueue =>
      rw [ConsolidationQueue.enqueue] at hqueue
      obtain ⟨_, hpaused, hqueue⟩ := Iff.mp Except.bind_ok_iff hqueue
      have hrunning := Iff.mp Except.require_ok_iff hpaused
      dsimp only at hqueue
      split at hqueue
      · obtain rfl := Iff.mp Except.pure_ok_iff hqueue
        exact h
      next hblocks =>
          obtain ⟨_, hroom, hqueue⟩ := Iff.mp Except.bind_ok_iff hqueue
          have hnew : ¬ s.Known (policyVersion, candidateId) := by
            intro hknown
            obtain ⟨status, hstatus⟩ := Option.ne_none_iff_exists'.mp (h.marked _ hknown)
            rw [hstatus] at hblocks
            cases status with
            | retry => exact hcareful hstatus hknown
            | paused =>
                rw [(h.resumed _ hstatus).1] at hrunning
                cases hrunning
            | queued => simp [blocks] at hblocks
            | running => simp [blocks] at hblocks
            | deadLetter => simp [blocks] at hblocks
            | cancelled => simp [blocks] at hblocks
            | complete => simp [blocks] at hblocks
          exact @Inv.insert s h ⟨candidateId, policyVersion, _, 0, .queued⟩ rfl rfl hnew
            (Iff.mp Except.require_ok_iff hroom) _ (Iff.mp Except.pure_ok_iff hqueue).symm
  next => exact h

/-- What the invariant reads of an item that is held. -/
def tally (item : QueueItem) : (String × String) × ℕ := (item.pair, item.attempts)

/-- Items were cancelled, finished or given another status. -/
theorem Inv.shrink {s t : QueueRun} (h : s.Inv) (hpops : t.pops = s.pops)
    (hmaxItems : t.queue.maxItems = s.queue.maxItems)
    (hmaxRetries : t.queue.maxRetries = s.queue.maxRetries)
    (hlive : (t.queue.live.map tally).Sublist (s.queue.live.map tally))
    (hrunning : t.running.Sublist s.running)
    (hsorted : t.queue.items.Pairwise QueueItem.Precedes)
    (hitems : ∀ x ∈ t.queue.items, x.pair ∈ s.queue.items.map QueueItem.pair)
    (hseen : ∀ key, s.queue.seen key ≠ none → t.queue.seen key ≠ none)
    (hresumed : ∀ key, t.queue.seen key = some .paused → t.queue.WaitsFor key) : t.Inv := by
  have hheld : (t.held.map tally).Sublist (s.held.map tally) := by
    rw [held, held, List.map_append, List.map_append]
    exact hlive.append (hrunning.map _)
  have hpairs : ∀ items : List QueueItem, items.map QueueItem.pair = (items.map tally).map Prod.fst := by
    intro items
    rw [List.map_map]
    rfl
  refine ⟨?_, ?_, ?_, hsorted, ?_, hresumed, ?_, ?_, ?_, ?_⟩
  · have hdistinct := h.distinct
    rw [hpairs] at hdistinct ⊢
    exact hdistinct.sublist (hheld.map _)
  · have hlength := hlive.length_le
    rw [List.length_map, List.length_map] at hlength
    rw [hmaxItems]
    exact hlength.trans h.bounded
  · rw [hpops, hmaxRetries]
    exact h.popped
  · intro pair hpair
    apply hseen
    apply h.marked
    rcases hpair with hmem | hmem
    · obtain ⟨x, hx, rfl⟩ := List.mem_map.mp hmem
      exact .inl (hitems x hx)
    · rw [hpops] at hmem
      exact .inr hmem
  · rw [hpops]
    exact fun x hx ↦ h.taken x (hrunning.subset hx)
  · intro x hx
    obtain ⟨y, hy, heq⟩ := List.mem_map.mp (hheld.subset (List.mem_map_of_mem hx))
    obtain ⟨hpair, hattempts⟩ := Prod.mk.inj heq
    rw [hpops, ← hpair, ← hattempts]
    exact h.attempts y hy
  · intro x hx
    obtain ⟨y, hy, heq⟩ := List.mem_map.mp (hlive.subset (List.mem_map_of_mem hx))
    rw [← (Prod.mk.inj heq).2, hmaxRetries]
    exact h.retries y hy
  · rw [hmaxRetries]
    exact h.limited

theorem Inv.finish {s : QueueRun} (h : s.Inv) (i : ℕ) : (s.next (.finish i)).Inv := by
  refine h.shrink rfl rfl rfl (.refl _) (List.eraseIdx_sublist ..) h.sorted ?_ (fun _ hkey ↦ hkey)
    h.resumed
  exact fun x hx ↦ List.mem_map_of_mem hx

/-- Items get another status, none of them cancelled before or after. -/
theorem map_status {queue : ConsolidationQueue} {f : QueueItem → QueueItem}
    (hf : ∀ x, (f x).status = .cancelled ↔ x.status = .cancelled)
    (hpair : ∀ x, (f x).pair = x.pair) (hattempts : ∀ x, (f x).attempts = x.attempts)
    (hpriority : ∀ x, (f x).priority = x.priority)
    (hsorted : queue.items.Pairwise QueueItem.Precedes) :
    ((queue.items.map f).filter fun item ↦ item.status ≠ .cancelled).map tally =
        queue.live.map tally ∧
      (queue.items.map f).Pairwise QueueItem.Precedes ∧
      ∀ x ∈ queue.items.map f, x.pair ∈ queue.items.map QueueItem.pair := by
  refine ⟨?_, List.pairwise_map.mpr (hsorted.imp ?_), ?_⟩
  · rw [live_map hf, List.map_map]
    refine List.map_congr_left fun x _ ↦ ?_
    rw [Function.comp_apply, tally, hpair, hattempts, tally]
  · intro x y hxy
    have hx : (f x).candidateId = x.candidateId := congrArg Prod.snd (hpair x)
    have hy : (f y).candidateId = y.candidateId := congrArg Prod.snd (hpair y)
    rwa [QueueItem.Precedes, hpriority, hpriority, hx, hy]
  · intro x hx
    obtain ⟨y, hy, rfl⟩ := List.mem_map.mp hx
    rw [hpair]
    exact List.mem_map_of_mem hy

theorem Inv.pause {s : QueueRun} (h : s.Inv) : (s.next .pause).Inv := by
  obtain ⟨hlive, hsorted, hitems⟩ := @map_status s.queue
    (fun item ↦ if decide (item.status = .queued ∨ item.status = .retry) then
      { item with status := .paused } else item)
    (by
      intro x
      split
      next hwaits => rcases of_decide_eq_true hwaits with hx | hx <;> simp [hx]
      next => rfl)
    (by intro x; split <;> rfl)
    (by intro x; split <;> rfl) (by intro x; split <;> rfl) h.sorted
  refine h.shrink rfl rfl rfl ?_ (.refl _) hsorted hitems ?_ fun key hkey ↦ ⟨rfl, ?_⟩
  · change (((s.queue.items.map _).filter _).map tally).Sublist _
    rw [hlive]
  · intro key hkey
    change (if _ then some QueueStatus.paused else s.queue.seen key) ≠ none
    split
    · exact Option.some_ne_none _
    · exact hkey
  · change (if _ then some QueueStatus.paused else s.queue.seen key) = _ at hkey
    split at hkey
    next hany =>
        obtain ⟨x, hx, hwaits⟩ := List.any_eq_true.mp hany
        obtain ⟨hwaits, hkey⟩ := Iff.mp Bool.and_eq_true_iff hwaits
        refine ⟨_, List.mem_map_of_mem hx, ?_⟩
        rw [if_pos hwaits]
        exact ⟨rfl, eq_of_beq hkey⟩
    next =>
        obtain ⟨-, x, hx, hstatus, hkey⟩ := h.resumed key hkey
        refine ⟨_, List.mem_map_of_mem hx, ?_⟩
        rw [if_neg (by simp [hstatus])]
        exact ⟨hstatus, hkey⟩

theorem Inv.resume {s : QueueRun} (h : s.Inv) : (s.next .resume).Inv := by
  obtain ⟨hlive, hsorted, hitems⟩ := @map_status s.queue
    (fun item ↦ if decide (item.status = .paused) then
      { item with status := .queued } else item)
    (by intro x; split <;> simp_all) (by intro x; split <;> rfl)
    (by intro x; split <;> rfl) (by intro x; split <;> rfl) h.sorted
  refine h.shrink rfl rfl rfl ?_ (.refl _) hsorted hitems ?_ ?_
  · change (((s.queue.items.map _).filter _).map tally).Sublist _
    rw [hlive]
  · intro key hkey
    change (if _ then some QueueStatus.queued else s.queue.seen key) ≠ none
    split
    · exact Option.some_ne_none _
    · exact hkey
  · -- A key that is still marked as paused would be one of a paused item.
    intro key hkey
    change (if _ then some QueueStatus.queued else s.queue.seen key) = _ at hkey
    split at hkey
    · cases hkey
    next hnone =>
        obtain ⟨-, x, hx, hstatus, hsame⟩ := h.resumed key hkey
        exact absurd (List.any_eq_true.mpr ⟨x, hx, by simp [hstatus, hsame]⟩) hnone

theorem Inv.cancel {s : QueueRun} (h : s.Inv) (candidateId : String) :
    (s.next (.cancel candidateId)).Inv := by
  rw [next, ConsolidationQueue.cancel]
  split
  next item items hfound =>
      obtain ⟨before, after, hsplit, hid, hstatus, rfl⟩ := cancelFirst_spec hfound
      have hsorted := h.sorted
      rw [hsplit] at hsorted
      refine h.shrink rfl rfl rfl ?_ (.refl _) ?_ ?_ ?_ ?_
      · apply List.Sublist.map
        change (List.filter _ (before ++ { item with status := .cancelled } :: after)).Sublist
          (List.filter _ s.queue.items)
        rw [hsplit, List.filter_append, List.filter_append]
        refine List.Sublist.append (.refl _) ?_
        rw [List.filter_cons_of_neg (by simp), List.filter_cons_of_pos (by simpa using hstatus)]
        exact List.sublist_cons_self ..
      · change (before ++ { item with status := .cancelled } :: after).Pairwise QueueItem.Precedes
        rw [List.pairwise_append, List.pairwise_cons] at hsorted ⊢
        obtain ⟨hbefore, ⟨hitem, hafter⟩, hacross⟩ := hsorted
        refine ⟨hbefore, ⟨hitem, hafter⟩, fun x hx y hy ↦ ?_⟩
        rcases List.mem_cons.mp hy with rfl | hy
        · exact hacross x hx item List.mem_cons_self
        · exact hacross x hx y (List.mem_cons_of_mem _ hy)
      · intro x hx
        rw [hsplit]
        change x ∈ before ++ { item with status := .cancelled } :: after at hx
        rw [List.map_append, List.map_cons]
        rcases List.mem_append.mp hx with hx | hx
        · exact List.mem_append_left _ (List.mem_map_of_mem hx)
        · rcases List.mem_cons.mp hx with rfl | hx
          · exact List.mem_append_right _ List.mem_cons_self
          · exact List.mem_append_right _ (List.mem_cons_of_mem _ (List.mem_map_of_mem hx))
      · intro key hkey
        change (ConsolidationQueue.mark _ _ _).seen key ≠ none
        rw [seen_mark]
        split
        · exact Option.some_ne_none _
        · exact hkey
      · intro key hkey
        change (ConsolidationQueue.mark _ _ _).seen key = _ at hkey
        rw [seen_mark] at hkey
        split at hkey
        · cases hkey
        next hother =>
            obtain ⟨hpaused, x, hx, hwaits, hsame⟩ := h.resumed key hkey
            refine ⟨hpaused, x, ?_, hwaits, hsame⟩
            change x ∈ before ++ { item with status := .cancelled } :: after
            rw [hsplit] at hx
            rcases List.mem_append.mp hx with hx | hx
            · exact List.mem_append_left _ hx
            · rcases List.mem_cons.mp hx with rfl | hx
              · rw [QueueItem.pair, hid] at hsame
                exact absurd hsame.symm hother
              · exact List.mem_append_right _ (List.mem_cons_of_mem _ hx)
  next => exact h

theorem Inv.pop {s : QueueRun} (h : s.Inv) : (s.next .pop).Inv := by
  by_cases hpaused : s.queue.paused = true
  · have hpop : s.queue.pop = (none, s.queue) := h.safe.idle hpaused
    rw [next, hpop]
    simpa using h
  rcases popItems_spec s.queue.items with ⟨hnone, hcancelled⟩ |
    ⟨skipped, item, rest, hitems, hskipped, hitem, hfirst⟩
  · have hpop : s.queue.pop = (none, { s.queue with items := [] }) := by
      rw [ConsolidationQueue.pop, if_neg hpaused, hnone]
    rw [next, hpop]
    refine h.shrink (by simp) rfl rfl ?_ (by simp) List.Pairwise.nil (by simp)
      (fun _ hkey ↦ hkey) fun key hkey ↦ absurd (h.resumed key hkey).1 hpaused
    exact List.nil_sublist _
  · have hpop : s.queue.pop = (some { item with
        status := .running
        attempts := min (item.attempts + 1) maxU32 }, { s.queue with items := rest }) := by
      rw [ConsolidationQueue.pop, if_neg hpaused, hfirst]
    have hlive : s.queue.live = item :: rest.filter fun x ↦ x.status ≠ .cancelled := by
      rw [live, hitems, List.filter_append, List.filter_cons_of_pos (by simpa using hitem),
        List.filter_eq_nil_iff.mpr (by simpa using hskipped), List.nil_append]
    have hmem : item ∈ s.queue.live := by
      rw [hlive]
      exact List.mem_cons_self
    have hretries := h.retries item hmem
    have hcount := h.attempts item (List.mem_append_left _ hmem)
    have hlimited := h.limited
    have hattempts : min (item.attempts + 1) maxU32 = item.attempts + 1 := by omega
    have hdistinct := h.distinct
    rw [held, hlive, List.cons_append, List.map_cons, List.nodup_cons] at hdistinct
    -- Of the items that stay, none is of the candidate that was popped.
    have hother : ∀ x ∈ (rest.filter fun x ↦ x.status ≠ .cancelled) ++ s.running,
        x.pair ≠ item.pair := by
      intro x hx hpair
      apply hdistinct.1
      rw [← hpair]
      exact List.mem_map_of_mem hx
    rw [next, hpop, hattempts]
    refine ⟨?_, ?_, ?_, ?_, ?_, ?_, ?_, ?_, ?_, h.limited⟩
    · change (List.map QueueItem.pair ((rest.filter fun x ↦ x.status ≠ .cancelled) ++
        (s.running ++ [_]))).Nodup
      rw [← List.append_assoc, List.map_append, List.map_singleton]
      refine (List.perm_append_singleton _ _).nodup_iff.mpr (List.nodup_cons.mpr ?_)
      exact hdistinct
    · have hbounded := h.bounded
      rw [len, hlive, List.length_cons] at hbounded
      change (rest.filter fun x ↦ x.status ≠ .cancelled).length ≤ s.queue.maxItems
      omega
    · intro pair
      have hpopped := h.popped pair
      change (s.pops ++ [item.pair]).count pair ≤ s.queue.maxRetries + 1
      rw [List.count_append, List.count_singleton]
      split
      next hsame =>
          rw [← eq_of_beq hsame, ← hcount]
          omega
      next => exact hpopped
    · have hsorted := h.sorted
      rw [hitems] at hsorted
      exact (List.pairwise_cons.mp (List.pairwise_append.mp hsorted).2.1).2
    · rintro pair (hknown | hknown)
      · apply h.marked
        obtain ⟨x, hx, rfl⟩ := List.mem_map.mp hknown
        refine .inl (List.mem_map_of_mem ?_)
        rw [hitems]
        exact List.mem_append_right _ (List.mem_cons_of_mem _ hx)
      · apply h.marked
        rcases List.mem_append.mp hknown with hknown | hknown
        · exact .inr hknown
        · rw [List.mem_singleton.mp hknown]
          refine .inl (List.mem_map.mpr ⟨item, ?_, rfl⟩)
          rw [hitems]
          exact List.mem_append_right _ List.mem_cons_self
    · exact fun key hkey ↦ absurd (h.resumed key hkey).1 hpaused
    · intro x hx
      rcases List.mem_append.mp hx with hx | hx
      · exact List.mem_append_left _ (h.taken x hx)
      · rw [List.mem_singleton.mp hx]
        exact List.mem_append_right _ (List.mem_singleton_self _)
    · intro x hx
      change x ∈ (rest.filter fun x ↦ x.status ≠ .cancelled) ++ (s.running ++ [_]) at hx
      change x.attempts = (s.pops ++ [item.pair]).count x.pair
      rw [List.count_append, List.count_singleton]
      rw [← List.append_assoc] at hx
      rcases List.mem_append.mp hx with hx | hx
      · have hne : (item.pair == x.pair) = false := by
          rw [beq_eq_false_iff_ne]
          exact (hother x hx).symm
        rw [hne, if_neg Bool.false_ne_true, Nat.add_zero]
        apply h.attempts
        rw [held, hlive]
        exact List.mem_cons_of_mem _ hx
      · rw [List.mem_singleton.mp hx]
        change item.attempts + 1 = s.pops.count item.pair + if item.pair == item.pair then 1 else 0
        rw [beq_self_eq_true, if_pos rfl, hcount]
    · intro x hx
      apply h.retries
      rw [hlive]
      exact List.mem_cons_of_mem _ hx

theorem Inv.retry {s : QueueRun} (h : s.Inv) {i : ℕ} (hcareful : s.Careful (.retry i)) :
    (s.next (.retry i)).Inv := by
  rw [next]
  split
  next item hitem =>
      obtain ⟨hi, hget⟩ := List.getElem?_eq_some_iff.mp hitem
      have hperm : s.running.Perm (item :: s.running.eraseIdx i) := by
        rw [← hget]
        exact (List.getElem_cons_eraseIdx_perm hi).symm
      have hmem : item ∈ s.running := List.mem_of_getElem? hitem
      have hseen : ∀ status, ∀ key, s.queue.seen key ≠ none →
          (s.queue.mark (queueKey item.pair) status).seen key ≠ none := by
        intro status key hkey
        rw [seen_mark]
        split
        · exact Option.some_ne_none _
        · exact hkey
      have hresumed : ∀ status, status ≠ .paused → ∀ key,
          (s.queue.mark (queueKey item.pair) status).seen key = some .paused →
            s.queue.WaitsFor key := by
        intro status hstatus key hkey
        rw [seen_mark] at hkey
        split at hkey
        · exact absurd (Option.some.inj hkey) hstatus
        · exact h.resumed key hkey
      rw [ConsolidationQueue.retry]
      by_cases hlarge : s.queue.maxRetries < item.attempts
      · rw [if_pos hlarge, if_neg (by simp)]
        refine h.shrink rfl rfl rfl (.refl _) (List.eraseIdx_sublist ..) h.sorted ?_ (hseen _)
          (hresumed _ (by simp))
        exact fun x hx ↦ List.mem_map_of_mem hx
      · rw [if_neg hlarge, if_pos rfl]
        have hroom := hcareful item hitem (not_lt.mp hlarge)
        set pushed : QueueItem := { item with status := .retry } with hpushed
        have hlive := @live_push (s.queue.mark (queueKey item.pair) .retry) pushed
          (by simp [hpushed])
        have hheld : ((((s.queue.mark (queueKey item.pair) .retry).push pushed).live ++
            s.running.eraseIdx i).map tally).Perm (s.held.map tally) := by
          rw [held, List.map_append, List.map_append]
          refine ((hlive.map _).append_right _).trans ?_
          rw [List.map_append, List.append_assoc]
          exact ((hperm.map tally).symm).append_left _
        have hpairs : ∀ items : List QueueItem,
            items.map QueueItem.pair = (items.map tally).map Prod.fst := by
          intro items
          rw [List.map_map]
          rfl
        refine ⟨?_, ?_, h.popped, sorted_push _ _, ?_, ?_, ?_, ?_, ?_, h.limited⟩
        · have hdistinct := h.distinct
          rw [hpairs] at hdistinct ⊢
          exact (hheld.map _).nodup_iff.mpr hdistinct
        · have hlength := hlive.length_eq
          rw [List.length_append, List.length_singleton] at hlength
          change List.length _ ≤ s.queue.maxItems
          rw [hlength]
          exact hroom
        · intro pair hpair
          apply hseen
          apply h.marked
          rcases hpair with hknown | hknown
          · obtain ⟨x, hx, rfl⟩ := List.mem_map.mp hknown
            rcases Iff.mp mem_push hx with hx | rfl
            · exact .inl (List.mem_map_of_mem hx)
            · exact .inr (h.taken item hmem)
          · exact .inr hknown
        · intro key hkey
          obtain ⟨hpaused, x, hx, hrest⟩ := hresumed _ (by simp) key hkey
          exact ⟨hpaused, x, Iff.mpr mem_push (.inl hx), hrest⟩
        · exact fun x hx ↦ h.taken x ((List.eraseIdx_sublist ..).subset hx)
        · intro x hx
          obtain ⟨y, hy, heq⟩ := List.mem_map.mp (hheld.mem_iff.mp (List.mem_map_of_mem hx))
          obtain ⟨hpair, hattempts⟩ := Prod.mk.inj heq
          rw [← hpair, ← hattempts]
          exact h.attempts y hy
        · intro x hx
          rcases List.mem_append.mp (hlive.mem_iff.mp hx) with hx | hx
          · exact h.retries x hx
          · rw [List.mem_singleton.mp hx]
            exact not_lt.mp hlarge
  next => exact h

theorem Inv.next {s t : QueueRun} {event : QueueEvent} (h : s.Inv) (hcareful : s.Careful event)
    (hstep : Step s event t) : t.Inv := by
  subst hstep
  cases event with
  | enqueue candidateId policyVersion priority => exact h.enqueue hcareful
  | pop => exact h.pop
  | retry i => exact h.retry hcareful
  | finish i => exact h.finish i
  | pause => exact h.pause
  | resume => exact h.resume
  | cancel candidateId => exact h.cancel candidateId

/-- In every run in which no known candidate is queued again while it is marked
for a retry, and items are retried only when there is room, no candidate is
held twice, the queue stays within its bound, items are popped in their order
and never while the queue is paused, and none is popped more often than it may
be retried. -/
theorem safe_of_run {policy : ConsolidationPolicy} {queue : ConsolidationQueue} {s : QueueRun}
    (hnew : ConsolidationQueue.new policy = .ok queue)
    (hrun : Transition.Run Step Careful (start queue) s) : s.Safe :=
  (Transition.Run.preserves (I := Inv) (fun _ _ _ h hcareful hstep ↦ h.next hcareful hstep)
    hrun (inv_start hnew)).safe

theorem new_sample :
    ConsolidationQueue.new .sample = .ok ⟨100, 3, false, [], fun _ ↦ none⟩ := by
  have hvalid : ConsolidationPolicy.sample.validate = .ok () := by decide +kernel
  rw [ConsolidationQueue.new, hvalid]
  rfl

theorem run_of_along {ok : QueueRun → QueueEvent → Prop} {s : QueueRun} {events : List QueueEvent}
    (h : Transition.Along next ok s events) : Transition.Run Step ok s (events.foldl next s) := by
  have hstep : ∀ (s : QueueRun) event, Step s event (s.next event) := fun _ _ ↦ rfl
  exact Transition.Run.of_along hstep h

/-- A candidate is queued, popped, retried and popped again. -/
theorem safe_sample : ∃ s : QueueRun, s.Safe ∧ s.pops = [("v", "a"), ("v", "a")] := by
  have halong : Transition.Along next Careful (start ⟨100, 3, false, [], fun _ ↦ none⟩)
      [.enqueue "a" "v" 3, .pop, .retry 0, .pop] := by
    refine ⟨?_, trivial, ?_, trivial, trivial⟩
    · intro hseen
      cases hseen
    · intro item _ _
      decide +kernel
  exact ⟨_, safe_of_run new_sample (run_of_along halong), by decide +kernel⟩

/-- A candidate that is marked for a retry is queued a second time. -/
theorem retry_duplicated :
    ¬ ∀ (policy : ConsolidationPolicy) (queue : ConsolidationQueue) (s : QueueRun),
      ConsolidationQueue.new policy = .ok queue →
      Transition.Run Step (fun _ _ ↦ True) (start queue) s →
        (s.held.map QueueItem.pair).Nodup := by
  intro h
  have halong : Transition.Along next (fun _ _ ↦ True)
      (start ⟨100, 3, false, [], fun _ ↦ none⟩)
      [.enqueue "a" "v" 3, .pop, .retry 0, .enqueue "a" "v" 3] :=
    ⟨trivial, trivial, trivial, trivial, trivial⟩
  have hdistinct := h .sample _ _ new_sample (run_of_along halong)
  revert hdistinct
  decide +kernel

end QueueRun

end Cortana
