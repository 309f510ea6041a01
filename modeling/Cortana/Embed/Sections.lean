import Mathlib.Data.List.Nodup
import Cortana.Embed.Model

/-!
# The lock sections of the embedding cache

What one lock section over the shared map does: `Enters` when a call looks
for its keys, `Releases` when a leader takes its keys out again.
-/

namespace Cortana

open EmbedState

variable {e : CachedEmbedder} {s s' : EmbedState}

theorem CachedEmbedder.key_injective (e : CachedEmbedder) : Function.Injective e.key :=
  fun _ _ h ↦ (String.append_right_inj _).mp h

/-! ## The lock sections -/

/-- What the lock section over the missing texts does to the state. -/
structure Enters (e : CachedEmbedder) (s s' : EmbedState) (order : List String)
    (leaders : List (String × ℕ)) (waiters : List ℕ) : Prop where
  sublist : (leaders.map Prod.fst).Sublist order
  unled : ∀ p ∈ leaders, s.inflight (e.key p.1) = none
  inserted : ∀ p ∈ leaders, s'.inflight (e.key p.1) = some p.2
  kept : ∀ key channel, s.inflight key = some channel → s'.inflight key = some channel
  only : ∀ key channel, s'.inflight key = some channel → s.inflight key = none →
    ∃ p ∈ leaders, e.key p.1 = key
  waiting : ∀ channel ∈ waiters, ∃ key, s'.inflight key = some channel
  signalled : s'.signalled = s.signalled
  cache : s'.cache = s.cache
  calls : s'.calls = s.calls
  provided : s'.provided = s.provided

theorem enters_insertKey {text : String} (h : s.inflight (e.key text) = none) :
    Enters e s (s.insertKey (e.key text)) [text] [(text, s.nextChannel)] [] where
  sublist := List.Sublist.refl _
  unled := by simpa using h
  inserted := by simp [insertKey]
  kept := by
    intro key channel hkey
    have hne : key ≠ e.key text := by
      rintro rfl
      simp [h] at hkey
    simpa [insertKey, hne] using hkey
  only := by
    intro key channel hkey hnone
    by_cases heq : key = e.key text
    · exact ⟨_, List.mem_cons_self, heq.symm⟩
    · simp [insertKey, heq, hnone] at hkey
  waiting := by simp
  signalled := rfl
  cache := rfl
  calls := rfl
  provided := rfl

theorem enters_wait {text : String} {channel : ℕ}
    (h : s.inflight (e.key text) = some channel) : Enters e s s [text] [] [channel] where
  sublist := List.nil_sublist _
  unled := by simp
  inserted := by simp
  kept := fun _ _ hkey ↦ hkey
  only := fun _ _ hkey hnone ↦ by simp [hkey] at hnone
  waiting := fun c hc ↦ ⟨e.key text, by rw [h, List.mem_singleton.mp hc]⟩
  signalled := rfl
  cache := rfl
  calls := rfl
  provided := rfl

/-- Two lock sections one after the other are one. -/
theorem Enters.trans {t : EmbedState} {order order' : List String}
    {leaders leaders' : List (String × ℕ)} {waiters waiters' : List ℕ}
    (h : Enters e s s' order leaders waiters) (h' : Enters e s' t order' leaders' waiters') :
    Enters e s t (order ++ order') (leaders ++ leaders') (waiters ++ waiters') where
  sublist := by
    rw [List.map_append]
    exact h.sublist.append h'.sublist
  unled := by
    intro p hp
    rcases List.mem_append.mp hp with hp | hp
    · exact h.unled p hp
    · have hnone := h'.unled p hp
      cases hkey : s.inflight (e.key p.1) with
      | none => rfl
      | some channel => simp [h.kept _ _ hkey] at hnone
  inserted := by
    intro p hp
    rcases List.mem_append.mp hp with hp | hp
    · exact h'.kept _ _ (h.inserted p hp)
    · exact h'.inserted p hp
  kept := fun key channel hkey ↦ h'.kept _ _ (h.kept key channel hkey)
  only := by
    intro key channel hkey hnone
    cases hmid : s'.inflight key with
    | none =>
        obtain ⟨p, hp, heq⟩ := h'.only key channel hkey hmid
        exact ⟨p, List.mem_append_right _ hp, heq⟩
    | some other =>
        obtain ⟨p, hp, heq⟩ := h.only key other hmid hnone
        exact ⟨p, List.mem_append_left _ hp, heq⟩
  waiting := by
    intro channel hchannel
    rcases List.mem_append.mp hchannel with hc | hc
    · obtain ⟨key, hkey⟩ := h.waiting channel hc
      exact ⟨key, h'.kept _ _ hkey⟩
    · exact h'.waiting channel hc
  signalled := h'.signalled.trans h.signalled
  cache := h'.cache.trans h.cache
  calls := h'.calls.trans h.calls
  provided := h'.provided.trans h.provided

theorem enterBatch_enters (e : CachedEmbedder) (order : List String) (s : EmbedState) :
    Enters e s (enterBatch e s order).1 order (enterBatch e s order).2.1
      (enterBatch e s order).2.2 := by
  induction order generalizing s with
  | nil =>
      exact ⟨List.nil_sublist _, by simp [enterBatch], by simp [enterBatch], fun _ _ h ↦ h,
        fun _ _ h hnone ↦ by simp [enterBatch, hnone] at h, by simp [enterBatch], rfl, rfl, rfl,
        rfl⟩
  | cons text rest ih =>
      rw [enterBatch]
      cases h : s.inflight (e.key text) with
      | some channel => exact (enters_wait h).trans (ih s)
      | none => exact (enters_insertKey h).trans (ih _)

theorem enterBatch_spec {order : List String} {leaders : List (String × ℕ)} {waiters : List ℕ}
    (h : enterBatch e s order = (s', leaders, waiters)) :
    Enters e s s' order leaders waiters := by
  have hspec := enterBatch_enters e order s
  rwa [h] at hspec

/-- What taking keys out of the map does to the state. -/
structure Releases (e : CachedEmbedder) (s s' : EmbedState) (texts : List String) : Prop where
  inflight : ∀ key, s'.inflight key =
    if key ∈ texts.map e.key then none else s.inflight key
  kept : ∀ channel, s.signalled channel = true → s'.signalled channel = true
  signalled : ∀ key ∈ texts.map e.key, ∀ channel, s.inflight key = some channel →
    s'.signalled channel = true
  cache : s'.cache = s.cache
  calls : s'.calls = s.calls
  provided : s'.provided = s.provided

theorem release_releases {text : String} {channel : ℕ}
    (h : s.inflight (e.key text) = some channel) :
    Releases e s (s.release (e.key text) channel) [text] where
  inflight := by
    intro key
    by_cases heq : key = e.key text <;> simp [release, heq]
  kept := by
    intro c hc
    by_cases heq : c = channel <;> simp [release, heq, hc]
  signalled := by
    intro key hkey c hc
    rw [List.map_singleton, List.mem_singleton] at hkey
    rw [hkey, h, Option.some.injEq] at hc
    simp [release, hc]
  cache := rfl
  calls := rfl
  provided := rfl

theorem releaseOwn_releases (e : CachedEmbedder) (s : EmbedState) (text : String) :
    Releases e s (s.releaseOwn (e.key text)) [text] := by
  rw [releaseOwn]
  cases h : s.inflight (e.key text) with
  | some channel => exact release_releases h
  | none =>
      refine ⟨fun key ↦ ?_, fun _ hc ↦ hc, fun key hkey c hc ↦ ?_, rfl, rfl, rfl⟩
      · by_cases heq : key = e.key text <;> simp [heq, h]
      · rw [List.map_singleton, List.mem_singleton] at hkey
        simp [hkey, h] at hc

theorem releaseAll_frame (e : CachedEmbedder) (s : EmbedState) (leaders : List (String × ℕ)) :
    (releaseAll e s leaders).cache = s.cache ∧ (releaseAll e s leaders).calls = s.calls ∧
      (releaseAll e s leaders).provided = s.provided := by
  induction leaders generalizing s with
  | nil => exact ⟨rfl, rfl, rfl⟩
  | cons p leaders ih => exact ih _

/-- A batch that holds the channels of its keys releases exactly these keys. -/
theorem releaseAll_releases {leaders : List (String × ℕ)} (hnodup : (leaders.map Prod.fst).Nodup)
    (h : ∀ p ∈ leaders, s.inflight (e.key p.1) = some p.2) :
    Releases e s (releaseAll e s leaders) (leaders.map Prod.fst) := by
  induction leaders generalizing s with
  | nil => exact ⟨by simp [releaseAll], fun _ hc ↦ hc, by simp, rfl, rfl, rfl⟩
  | cons p leaders ih =>
      obtain ⟨text, channel⟩ := p
      rw [List.map_cons, List.nodup_cons] at hnodup
      have hfirst := release_releases (h (text, channel) List.mem_cons_self)
      have hother : ∀ p ∈ leaders, p.1 ≠ text := by
        rintro p hp rfl
        exact hnodup.1 (List.mem_map.mpr ⟨p, hp, rfl⟩)
      have hrest := ih hnodup.2 (s := s.release (e.key text) channel) fun p hp ↦ by
        rw [hfirst.inflight, if_neg (by simpa using fun heq ↦ hother p hp (e.key_injective heq))]
        exact h p (List.mem_cons_of_mem _ hp)
      refine ⟨fun key ↦ ?_, fun c hc ↦ hrest.kept c (hfirst.kept c hc), fun key hkey c hc ↦ ?_,
        hrest.cache, hrest.calls, hrest.provided⟩
      · rw [releaseAll, hrest.inflight, hfirst.inflight]
        by_cases heq : key = e.key text
        · simp [heq]
        · simp only [List.map_cons, List.map_nil, List.mem_cons, List.not_mem_nil, heq,
            false_or, if_false]
      · rw [releaseAll]
        by_cases heq : key = e.key text
        · exact hrest.kept c (hfirst.signalled key (by simp [heq]) c hc)
        · refine hrest.signalled key ?_ c ?_
          · simpa [heq] using hkey
          · rw [hfirst.inflight, if_neg (by simpa using heq)]
            exact hc

end Cortana
