import Cortana.Embed.Vectors

/-!
# Who leads which key

While no call is dropped as a leader and the batch path does not leave past
its clean-up, the map holds exactly the keys that running calls lead, each key
is led by one call, and every watched channel is signalled or still in the map.
-/

namespace Cortana

open EmbedState

variable {e : CachedEmbedder} {s s' : EmbedState} {call call' : Call} {action : EmbedAction}

/-- The keys a batch has put into the map, with the channels it keeps for them. -/
def Call.channels : Call → List (String × ℕ)
  | batch _ _ _ pc => pc.leaders
  | _ => []

/-- The events that leave no key behind: a call that leads a key is not
dropped, and while a batch leads its keys the provider returns as many vectors
as texts and the cache accepts them. -/
def Orderly (s : EmbedState) : EmbedEvent → Prop
  | .caller i .cancel => (s.calls i).led = []
  | .caller i (.answer (.ok vectors)) =>
      (s.calls i).isBatch = true → vectors.length = (s.calls i).requested.length
  | .caller i (.write (.error _)) => (s.calls i).isBatch = false
  | .caller i (.prune (.error _)) => (s.calls i).isBatch = false
  | _ => True

/-! ## What a step does to the map -/

/-- A step of a call leaves the map alone, enters keys into it or releases all
keys the call leads. -/
inductive Effect (e : CachedEmbedder) (s : EmbedState) (call : Call) (s' : EmbedState)
    (call' : Call) : Prop
  | quiet (inflight : s'.inflight = s.inflight) (signalled : s'.signalled = s.signalled)
      (led : call'.led = call.led) (channels : call'.channels = call.channels)
      (watched : ∀ c ∈ call'.watched, c ∈ call.watched)
  | enters {order leaders waiters} (enters : Enters e s s' order leaders waiters)
      (nodup : order.Nodup) (unled : call.led = []) (led : call'.led = leaders.map Prod.fst)
      (channels : ∀ p ∈ call'.channels, p ∈ leaders) (watched : ∀ c ∈ call'.watched, c ∈ waiters)
  | releases (releases : Releases e s s' call.led) (led : call'.led = [])
      (channels : call'.channels = []) (watched : ∀ c ∈ call'.watched, c ∈ call.watched)

theorem afterAnswer_leads (e : CachedEmbedder) (result : Except String (List Embedding)) :
    (afterAnswer e result).leads = true := by
  unfold afterAnswer
  split
  · rfl
  · split_ifs <;> rfl
  · rfl

theorem afterBatchAnswer_leaders (e : CachedEmbedder) {leaders : List (String × ℕ)}
    {result : Except String (List Embedding)}
    (h : ∀ vectors, result = .ok vectors → vectors.length = leaders.length) :
    (afterBatchAnswer e leaders result).leaders = leaders := by
  cases result with
  | error error => rfl
  | ok vectors =>
      simp only [afterBatchAnswer, h vectors rfl, if_true]
      split_ifs <;> rfl

theorem Call.channels_eq_nil (h : call.led = []) : call.channels = [] := by
  cases call with
  | batch input resolved output pc => simpa [Call.led, Call.channels] using h
  | _ => rfl

/-- What one step can do to the map of texts being embedded. -/
theorem CallStep.effect (hcall : call.Sound e s.provided) (hnodup : call.led.Nodup)
    (hchannels : ∀ p ∈ call.channels, s.inflight (e.key p.1) = some p.2) {i : ℕ}
    (hi : s.calls i = call) (hok : Orderly s (.caller i action))
    (h : CallStep e s call action s' call') : Effect e s call s' call' := by
  cases h with
  | enterWaits h =>
      exact .enters (enters_wait h) (List.nodup_singleton _) rfl rfl (by simp [Call.channels])
        (fun _ hc ↦ hc)
  | enterLeads h =>
      exact .enters (enters_insertKey h) (List.nodup_singleton _) rfl rfl
        (by simp [Call.channels]) (fun _ hc ↦ hc)
  | enterBatchWaits horder h =>
      exact .enters (enterBatch_spec h) (horder.nodup_iff.mpr hcall.2.2.1) rfl rfl
        (by simp [Call.channels, BatchPc.leaders]) (fun _ hc ↦ hc)
  | enterBatchLeads horder h =>
      exact .enters (enterBatch_spec h) (horder.nodup_iff.mpr hcall.2.2.1) rfl rfl
        (fun _ hp ↦ hp) (fun _ hc ↦ hc)
  | answers text result =>
      refine .quiet rfl rfl (if_pos (afterAnswer_leads e result)) rfl ?_
      unfold afterAnswer
      split <;> [skip; split_ifs; skip] <;> simp [Call.watched]
  | writes text vector written =>
      obtain ⟨-, hin, hsig, -⟩ := writeCache_frame s e text vector written
      exact .quiet hin hsig rfl rfl (by simp [Call.watched])
  | cleans text =>
      exact .releases (releaseOwn_releases e s text) rfl rfl (by simp [Call.watched])
  | batchAnswers input resolved output waiters leaders result =>
      have hleaders : (afterBatchAnswer e leaders result).leaders = leaders := by
        refine afterBatchAnswer_leaders e fun vectors hvectors ↦ ?_
        subst hvectors
        simpa [Orderly, hi, Call.isBatch, Call.requested] using hok
      exact .quiet rfl rfl (congrArg (List.map Prod.fst) hleaders) hleaders (fun _ hc ↦ hc)
  | batchWrites _ _ _ _ _ _ text vector _ written =>
      obtain ⟨-, hin, hsig, -⟩ := writeCache_frame s e text vector written
      exact .quiet hin hsig rfl rfl (fun _ hc ↦ hc)
  | batchWriteFails => simp [Orderly, hi, Call.isBatch] at hok
  | batchPruneFails => simp [Orderly, hi, Call.isBatch] at hok
  | batchCleans =>
      exact .releases (releaseAll_releases hnodup hchannels) rfl rfl (fun _ hc ↦ hc)
  | cancels =>
      have hled : call.led = [] := by simpa [Orderly, hi] using hok
      exact .quiet rfl rfl hled.symm (Call.channels_eq_nil hled).symm (by simp [Call.watched])
  | startSingle | startBatch | lookupHit | lookupMiss | lookupFails | wakes | writeFails
  | prunes | pruneFails | scanResolved | scanHit | scanMiss | scanFails | scanReturns
  | scanEnds | batchWakes | batchPrunes | batchJoins | batchFails =>
      exact .quiet rfl rfl rfl rfl (by simp [Call.watched])

/-! ## The invariant -/

/-- The map, the leaders and the watchers agree. -/
structure Leading (e : CachedEmbedder) (s : EmbedState) : Prop where
  nodup : ∀ i, (s.calls i).led.Nodup
  unique : ∀ i j text, text ∈ (s.calls i).led → text ∈ (s.calls j).led → i = j
  inMap : ∀ i, ∀ text ∈ (s.calls i).led, s.inflight (e.key text) ≠ none
  channels : ∀ i, ∀ p ∈ (s.calls i).channels, s.inflight (e.key p.1) = some p.2
  ledBy : ∀ key, s.inflight key ≠ none → ∃ i, ∃ text ∈ (s.calls i).led, e.key text = key
  watched : ∀ i, ∀ c ∈ (s.calls i).watched,
    s.signalled c = true ∨ ∃ key, s.inflight key = some c

@[simp] theorem setCall_self (s : EmbedState) (i : ℕ) (call : Call) :
    (s.setCall i call).calls i = call := Function.update_self ..

theorem setCall_of_ne {i j : ℕ} (h : j ≠ i) (s : EmbedState) (call : Call) :
    (s.setCall i call).calls j = s.calls j := Function.update_of_ne h ..

/-- What the new call satisfies and the others did before, all calls satisfy. -/
theorem forall_setCall {P : Call → Prop} {i : ℕ} (hcalls : s'.calls = s.calls) (hnew : P call')
    (hold : ∀ j, j ≠ i → P (s.calls j)) (j : ℕ) : P ((s'.setCall i call').calls j) := by
  by_cases hj : j = i
  · rw [hj, setCall_self]
    exact hnew
  · rw [setCall_of_ne hj, hcalls]
    exact hold j hj

/-- The leaders of distinct calls stay distinct when the new call leads only
texts that no other call leads. -/
theorem unique_setCall {i : ℕ} (hcalls : s'.calls = s.calls) (hlead : Leading e s)
    (hfresh : ∀ j text, j ≠ i → text ∈ (s.calls j).led → text ∉ call'.led) (j k : ℕ)
    (text : String) (hj : text ∈ ((s'.setCall i call').calls j).led)
    (hk : text ∈ ((s'.setCall i call').calls k).led) : j = k := by
  by_cases hji : j = i <;> by_cases hki : k = i
  · rw [hji, hki]
  · rw [hji, setCall_self] at hj
    rw [setCall_of_ne hki, hcalls] at hk
    exact absurd hj (hfresh k text hki hk)
  · rw [hki, setCall_self] at hk
    rw [setCall_of_ne hji, hcalls] at hj
    exact absurd hk (hfresh j text hji hj)
  · rw [setCall_of_ne hji, hcalls] at hj
    rw [setCall_of_ne hki, hcalls] at hk
    exact hlead.unique j k text hj hk

theorem Leading.quiet {i : ℕ} (hlead : Leading e s) (hcalls : s'.calls = s.calls)
    (inflight : s'.inflight = s.inflight) (signalled : s'.signalled = s.signalled)
    (led : call'.led = (s.calls i).led) (channels : call'.channels = (s.calls i).channels)
    (watched : ∀ c ∈ call'.watched, c ∈ (s.calls i).watched) :
    Leading e (s'.setCall i call') := by
  -- no call leads anything it did not lead before
  have hled : ∀ j, ((s'.setCall i call').calls j).led = (s.calls j).led := by
    intro j
    by_cases hj : j = i
    · rw [hj, setCall_self, led]
    · rw [setCall_of_ne hj, hcalls]
  constructor
  · exact fun j ↦ hled j ▸ hlead.nodup j
  · intro j k text
    rw [hled, hled]
    exact hlead.unique j k text
  · intro j text
    rw [hled]
    exact fun htext ↦ inflight ▸ hlead.inMap j text htext
  · refine forall_setCall (P := fun c ↦ ∀ p ∈ c.channels, s'.inflight (e.key p.1) = some p.2)
      hcalls ?_ ?_
    · rw [channels, inflight]
      exact hlead.channels i
    · rw [inflight]
      exact fun j _ ↦ hlead.channels j
  · intro key hkey
    obtain ⟨j, text, htext, heq⟩ := hlead.ledBy key (inflight ▸ hkey)
    exact ⟨j, text, by rwa [hled], heq⟩
  · refine forall_setCall (P := fun c ↦ ∀ c' ∈ c.watched,
      s'.signalled c' = true ∨ ∃ key, s'.inflight key = some c') hcalls ?_ ?_
    · rw [signalled, inflight]
      exact fun c hc ↦ hlead.watched i c (watched c hc)
    · rw [signalled, inflight]
      exact fun j _ ↦ hlead.watched j

theorem Leading.enters {i : ℕ} (hlead : Leading e s) {order leaders waiters}
    (henters : Enters e s s' order leaders waiters) (hnodup : order.Nodup)
    (unled : (s.calls i).led = []) (led : call'.led = leaders.map Prod.fst)
    (channels : ∀ p ∈ call'.channels, p ∈ leaders) (watched : ∀ c ∈ call'.watched, c ∈ waiters) :
    Leading e (s'.setCall i call') := by
  have hcalls := henters.calls
  have hmap : ∀ {text}, text ∈ call'.led → ∃ p ∈ leaders, p.1 = text := fun htext ↦ by
    rwa [led, List.mem_map] at htext
  constructor
  · refine forall_setCall (P := fun c ↦ c.led.Nodup) hcalls ?_ fun j _ ↦ hlead.nodup j
    rw [led]
    exact henters.sublist.nodup hnodup
  · refine unique_setCall hcalls hlead fun j text _ hj hnew ↦ ?_
    -- a key that some other call leads was in the map before
    obtain ⟨p, hp, rfl⟩ := hmap hnew
    exact hlead.inMap j _ hj (henters.unled p hp)
  · refine forall_setCall (P := fun c ↦ ∀ text ∈ c.led, s'.inflight (e.key text) ≠ none)
      hcalls ?_ ?_
    · intro text htext
      obtain ⟨p, hp, rfl⟩ := hmap htext
      simp [henters.inserted p hp]
    · intro j _ text htext
      obtain ⟨channel, hchannel⟩ := Option.ne_none_iff_exists'.mp (hlead.inMap j text htext)
      simp [henters.kept _ _ hchannel]
  · refine forall_setCall (P := fun c ↦ ∀ p ∈ c.channels, s'.inflight (e.key p.1) = some p.2)
      hcalls ?_ ?_
    · exact fun p hp ↦ henters.inserted p (channels p hp)
    · exact fun j _ p hp ↦ henters.kept _ _ (hlead.channels j p hp)
  · intro key hkey
    obtain ⟨channel, hchannel⟩ := Option.ne_none_iff_exists'.mp hkey
    by_cases hold : s.inflight key = none
    · obtain ⟨p, hp, heq⟩ := henters.only key channel hchannel hold
      refine ⟨i, p.1, ?_, heq⟩
      rw [setCall_self, led]
      exact List.mem_map_of_mem hp
    · obtain ⟨j, text, htext, heq⟩ := hlead.ledBy key hold
      refine ⟨j, text, ?_, heq⟩
      rwa [setCall_of_ne, hcalls]
      rintro rfl
      simp [unled] at htext
  · refine forall_setCall (P := fun c ↦ ∀ c' ∈ c.watched,
      s'.signalled c' = true ∨ ∃ key, s'.inflight key = some c') hcalls ?_ ?_
    · exact fun c hc ↦ Or.inr (henters.waiting c (watched c hc))
    · intro j _ c hc
      rcases hlead.watched j c hc with hsig | ⟨key, hkey⟩
      · exact Or.inl (henters.signalled ▸ hsig)
      · exact Or.inr ⟨key, henters.kept _ _ hkey⟩

theorem Call.led_of_channels {p : String × ℕ} (h : p ∈ call.channels) : p.1 ∈ call.led := by
  cases call with
  | batch input resolved output pc => exact List.mem_map_of_mem h
  | _ => exact absurd h List.not_mem_nil

theorem Leading.releases {i : ℕ} (hlead : Leading e s)
    (hreleases : Releases e s s' (s.calls i).led) (led : call'.led = [])
    (channels : call'.channels = []) (watched : ∀ c ∈ call'.watched, c ∈ (s.calls i).watched) :
    Leading e (s'.setCall i call') := by
  have hcalls := hreleases.calls
  -- the released keys are those of call `i`, so no other call loses one
  have hkept : ∀ {j text}, j ≠ i → text ∈ (s.calls j).led →
      e.key text ∉ (s.calls i).led.map e.key := by
    intro j text hj htext hmem
    obtain ⟨text', htext', heq⟩ := List.mem_map.mp hmem
    obtain rfl := e.key_injective heq
    exact hj (hlead.unique j i _ htext htext')
  have hwatch : ∀ j, ∀ c ∈ (s.calls j).watched,
      s'.signalled c = true ∨ ∃ key, s'.inflight key = some c := by
    intro j c hc
    rcases hlead.watched j c hc with hsig | ⟨key, hkey⟩
    · exact Or.inl (hreleases.kept c hsig)
    · by_cases hmem : key ∈ (s.calls i).led.map e.key
      · exact Or.inl (hreleases.signalled key hmem c hkey)
      · exact Or.inr ⟨key, by rw [hreleases.inflight, if_neg hmem, hkey]⟩
  constructor
  · exact forall_setCall (P := fun c ↦ c.led.Nodup) hcalls (led ▸ List.nodup_nil)
      fun j _ ↦ hlead.nodup j
  · exact unique_setCall hcalls hlead fun j text _ _ ↦ by simp [led]
  · refine forall_setCall (P := fun c ↦ ∀ text ∈ c.led, s'.inflight (e.key text) ≠ none)
      hcalls ?_ ?_
    · simp [led]
    · intro j hj text htext
      rw [hreleases.inflight, if_neg (hkept hj htext)]
      exact hlead.inMap j text htext
  · refine forall_setCall (P := fun c ↦ ∀ p ∈ c.channels, s'.inflight (e.key p.1) = some p.2)
      hcalls ?_ ?_
    · simp [channels]
    · intro j hj p hp
      rw [hreleases.inflight, if_neg (hkept hj (Call.led_of_channels hp))]
      exact hlead.channels j p hp
  · intro key hkey
    have hkey' : s'.inflight key ≠ none := hkey
    rw [hreleases.inflight] at hkey'
    split_ifs at hkey' with hmem
    · exact absurd rfl hkey'
    · obtain ⟨j, text, htext, rfl⟩ := hlead.ledBy key hkey'
      refine ⟨j, text, ?_, rfl⟩
      rwa [setCall_of_ne, hcalls]
      rintro rfl
      exact hmem (List.mem_map_of_mem htext)
  · exact forall_setCall (P := fun c ↦ ∀ c' ∈ c.watched,
      s'.signalled c' = true ∨ ∃ key, s'.inflight key = some c') hcalls
      (fun c hc ↦ hwatch i c (watched c hc)) fun j _ ↦ hwatch j

/-- Everything that holds in every reachable state. -/
structure EmbedInv (e : CachedEmbedder) (s : EmbedState) : Prop where
  cacheSound : CacheSound e s
  sound : ∀ i, (s.calls i).Sound e s.provided
  leading : Leading e s

theorem embedInv_initial (e : CachedEmbedder) : EmbedInv e EmbedState.initial := by
  refine ⟨?_, ?_, ?_⟩
  · simp [EmbedState.initial, CacheSound]
  · simp [EmbedState.initial, Call.Sound]
  · constructor <;> simp [EmbedState.initial, Call.led, Call.channels, Call.watched]

/-- Every orderly step of the system preserves the invariant. -/
theorem EmbedInv.step (hinj : Function.Injective e.hexDigest) {event : EmbedEvent}
    (hinv : EmbedInv e s) (hok : Orderly s event) (h : EmbedStep e s event s') :
    EmbedInv e s' := by
  cases h with
  | @call t i action call' h =>
      have hsound := hinv.sound i
      have hlead := hinv.leading
      have hcache : CacheSound e t := h.cacheSound hinj hinv.cacheSound hsound
      refine ⟨hcache, ?_, ?_⟩
      · exact forall_setCall (P := Call.Sound e t.provided) h.calls_eq
          (h.sound hinv.cacheSound hsound) fun j _ ↦ (hinv.sound j).mono h.provided_subset
      · cases h.effect hsound (hlead.nodup i) (hlead.channels i) rfl hok with
        | quiet inflight signalled led channels watched =>
            exact hlead.quiet h.calls_eq inflight signalled led channels watched
        | enters henters nodup unled led channels watched =>
            exact hlead.enters henters nodup unled led channels watched
        | releases hreleases led channels watched =>
            exact hlead.releases hreleases led channels watched
  | otherWrite fingerprint text vector =>
      have hmore : ∀ p ∈ s.provided, p ∈ s.provided ++ [(fingerprint, text, vector)] := fun p hp ↦
        List.mem_append_left _ hp
      refine ⟨?_, fun i ↦ (hinv.sound i).mono hmore, ?_⟩
      · intro row hrow text' hhash
        rcases List.mem_append.mp hrow with hold | hnew
        · exact hmore _ (hinv.cacheSound row (List.mem_filter.mp hold).1 text' hhash)
        · obtain rfl := List.mem_singleton.mp hnew
          obtain rfl := hinj hhash
          exact List.mem_append_right _ List.mem_cons_self
      · obtain ⟨nodup, unique, inMap, channels, ledBy, watched⟩ := hinv.leading
        exact ⟨nodup, unique, inMap, channels, ledBy, watched⟩
  | otherEvict h =>
      obtain ⟨nodup, unique, inMap, channels, ledBy, watched⟩ := hinv.leading
      exact ⟨hinv.cacheSound.sublist h, hinv.sound, nodup, unique, inMap, channels, ledBy,
        watched⟩

/-! ## Leaders clean up -/

/-- Whatever the call `i` meets on its way, as long as its own steps are
orderly, it takes the key out of the map and signals the channel after finitely
many of them. -/
inductive WillRelease (e : CachedEmbedder) (i : ℕ) (key : String) (channel : ℕ) :
    EmbedState → Prop
  | released {s : EmbedState} (removed : s.inflight key = none)
      (signalled : s.signalled channel = true) : WillRelease e i key channel s
  | step {s : EmbedState}
      (enabled : ∃ action s', Orderly s (.caller i action) ∧ EmbedStep e s (.caller i action) s')
      (next : ∀ action s', Orderly s (.caller i action) → EmbedStep e s (.caller i action) s' →
        WillRelease e i key channel s') : WillRelease e i key channel s

def SinglePc.rank : SinglePc → ℕ
  | requesting => 4
  | writing _ => 3
  | pruning _ => 2
  | cleaning _ => 1
  | _ => 0

def LeaderPc.rank : LeaderPc → ℕ
  | requesting leaders => leaders.length + 4
  | writing _ _ rest => rest.length + 3
  | cleaning _ _ => 1
  | ended _ => 0

/-- How many steps a leader has before it at most. -/
def Call.rank : Call → ℕ
  | single _ pc => pc.rank
  | batch _ _ _ (.joining _ leader) => leader.rank
  | _ => 0

theorem afterAnswer_rank (e : CachedEmbedder) (result : Except String (List Embedding)) :
    (afterAnswer e result).rank < 4 := by
  unfold afterAnswer
  split
  · simp [SinglePc.rank]
  · split_ifs <;> simp [SinglePc.rank]
  · simp [SinglePc.rank]

theorem afterBatchAnswer_rank (e : CachedEmbedder) (leaders : List (String × ℕ))
    (result : Except String (List Embedding)) :
    (afterBatchAnswer e leaders result).rank < leaders.length + 4 := by
  unfold afterBatchAnswer
  split
  · simp [LeaderPc.rank]
  · split_ifs with hlen
    · simp [LeaderPc.rank, hlen]
    · simp [LeaderPc.rank]
    · simp [LeaderPc.rank]

/-- Every step of a leader brings it nearer to its end. -/
theorem CallStep.rank_lt (h : CallStep e s call action s' call') (hled : call.led ≠ []) :
    call'.rank < call.rank := by
  cases h with
  | answers text result => exact afterAnswer_rank e result
  | batchAnswers _ _ _ _ leaders result => exact afterBatchAnswer_rank e leaders result
  | writes | writeFails | prunes | pruneFails | cleans => simp [Call.rank, SinglePc.rank]
  | batchWrites | batchWriteFails | batchPrunes | batchPruneFails | batchCleans =>
      simp [Call.rank, LeaderPc.rank]
  | @cancels call =>
      cases call with
      | single text pc => cases pc <;> simp_all [Call.led, SinglePc.leads, Call.rank, SinglePc.rank]
      | batch input resolved output pc =>
          cases pc with
          | joining waiters leader =>
              cases leader <;> simp_all [Call.led, BatchPc.leaders, LeaderPc.leaders, Call.rank,
                LeaderPc.rank]
          | _ => exact absurd rfl hled
      | _ => exact absurd rfl hled
  | _ => exact absurd rfl hled

theorem keeps_take (e : CachedEmbedder) (s : EmbedState) :
    Keeps e s (s.cache.take e.maxEntries) :=
  ⟨List.take_sublist _ _, by rw [List.length_take, Nat.min_comm]⟩

/-- A leader is never stuck. -/
theorem exists_orderly_step (e : CachedEmbedder) {i : ℕ} (hled : (s.calls i).led ≠ []) :
    ∃ action s', Orderly s (.caller i action) ∧ EmbedStep e s (.caller i action) s' := by
  have hstep : ∀ {action t call'}, CallStep e s (s.calls i) action t call' →
      Orderly s (.caller i action) →
      ∃ action s', Orderly s (.caller i action) ∧ EmbedStep e s (.caller i action) s' :=
    fun h hok ↦ ⟨_, _, hok, .call h⟩
  cases hcall : s.calls i with
  | single text pc =>
      rw [hcall] at hstep hled
      cases pc with
      | requesting => exact hstep (.answers text (.error "")) trivial
      | writing vector => exact hstep (.writes text vector false) trivial
      | pruning vector => exact hstep (.prunes text vector (keeps_take e s)) trivial
      | cleaning result => exact hstep (.cleans text result) trivial
      | _ => exact absurd rfl hled
  | batch input resolved output pc =>
      rw [hcall] at hstep hled
      cases pc with
      | joining waiters leader =>
          cases leader with
          | requesting leaders =>
              exact hstep (.batchAnswers input resolved output waiters leaders (.error "")) trivial
          | writing leaders pairs rest =>
              cases rest with
              | nil =>
                  exact hstep (.batchPrunes input resolved output waiters leaders pairs
                    (keeps_take e s)) trivial
              | cons pair rest =>
                  exact hstep (.batchWrites input resolved output waiters leaders pairs pair.1
                    pair.2 rest false) trivial
          | cleaning leaders result =>
              exact hstep (.batchCleans input resolved output waiters leaders result) trivial
          | ended => exact absurd rfl hled
      | _ => exact absurd rfl hled
  | _ => exact absurd (by rw [hcall]; rfl) hled

theorem EmbedInv.willRelease (hinj : Function.Injective e.hexDigest) {i : ℕ} {text : String}
    {channel : ℕ} (n : ℕ) (hinv : EmbedInv e s) (hrank : (s.calls i).rank ≤ n)
    (htext : text ∈ (s.calls i).led) (hmap : s.inflight (e.key text) = some channel) :
    WillRelease e i (e.key text) channel s := by
  induction n generalizing s with
  | zero =>
      obtain ⟨action, s', -, hstep⟩ := exists_orderly_step e (List.ne_nil_of_mem htext)
      cases hstep with
      | call h =>
          have := h.rank_lt (List.ne_nil_of_mem htext)
          omega
  | succ n ih =>
      refine .step (exists_orderly_step e (List.ne_nil_of_mem htext)) fun action s' hok hstep ↦ ?_
      have hinv' := hinv.step hinj hok hstep
      cases hstep with
      | @call t _ _ call' h =>
          have hlt := h.rank_lt (List.ne_nil_of_mem htext)
          cases h.effect (hinv.sound i) (hinv.leading.nodup i) (hinv.leading.channels i) rfl hok with
          | quiet inflight signalled led =>
              refine ih hinv' ?_ ?_ ?_
              · rw [setCall_self]
                omega
              · rwa [setCall_self, led]
              · exact inflight ▸ hmap
          | enters _ _ unled => simp [unled] at htext
          | releases hreleases =>
              have hmem : e.key text ∈ (s.calls i).led.map e.key := List.mem_map_of_mem htext
              refine .released ?_ (hreleases.signalled _ hmem channel hmap)
              exact (hreleases.inflight _).trans (if_pos hmem)

/-! ## The contract -/

/-- What the cache promises in a state: every key in the map has a running
leader that will take it out and signal its channel, whoever waits will be
woken, no text is requested twice at a time, and a call that returned vectors
returned the provider's vectors for its texts. -/
structure SingleFlight (e : CachedEmbedder) (s : EmbedState) : Prop where
  led : ∀ key channel, s.inflight key = some channel →
    ∃ i, (∃ text ∈ (s.calls i).led, e.key text = key) ∧ WillRelease e i key channel s
  watched : ∀ i, ∀ channel ∈ (s.calls i).watched,
    s.signalled channel = true ∨ ∃ key, s.inflight key = some channel
  requestedOnce : ∀ i, (s.calls i).requested.Nodup
  requestedBy : ∀ i j text, text ∈ (s.calls i).requested → text ∈ (s.calls j).requested → i = j
  returned : ∀ i input vectors, s.calls i = .returned input (.ok vectors) →
    vectors.length = input.length ∧ ∀ (n : ℕ) (text : String) (vector : Embedding),
      input[n]? = some text → vectors[n]? = some vector →
        (e.fingerprint, text, vector) ∈ s.provided

theorem Call.requested_sublist (call : Call) : call.requested.Sublist call.led := by
  cases call with
  | single text pc => cases pc <;> simp [Call.requested, Call.led, SinglePc.leads]
  | batch input resolved output pc =>
      cases pc with
      | joining waiters leader =>
          cases leader <;> simp [Call.requested, Call.led, BatchPc.leaders, LeaderPc.leaders]
      | _ => exact List.nil_sublist _
  | _ => exact List.nil_sublist _

theorem EmbedInv.singleFlight (hinj : Function.Injective e.hexDigest) (hinv : EmbedInv e s) :
    SingleFlight e s := by
  have hlead := hinv.leading
  refine ⟨?_, hlead.watched, ?_, ?_, ?_⟩
  · intro key channel hkey
    obtain ⟨i, text, htext, rfl⟩ := hlead.ledBy key (by simp [hkey])
    exact ⟨i, ⟨text, htext, rfl⟩, hinv.willRelease hinj _ (Nat.le_refl _) htext hkey⟩
  · exact fun i ↦ (s.calls i).requested_sublist.nodup (hlead.nodup i)
  · intro i j text hi hj
    exact hlead.unique i j text ((s.calls i).requested_sublist.subset hi)
      ((s.calls j).requested_sublist.subset hj)
  · intro i input vectors hcall
    have hsound := hinv.sound i
    rw [hcall] at hsound
    obtain ⟨hlen, hprovided⟩ := hsound
    refine ⟨by simpa using hlen, fun n text vector hn hv ↦ hprovided n text vector hn ?_⟩
    rw [List.getElem?_map, hv, Option.map_some]

/-- In every run all of whose events are orderly, the cache keeps its promise
in every state. -/
theorem embed_singleFlight (hinj : Function.Injective e.hexDigest)
    (h : EmbedReachable e Orderly s) : SingleFlight e s := by
  have hstep : ∀ s event t, EmbedInv e s → Orderly s event → EmbedStep e s event t →
      EmbedInv e t := fun _ _ _ hinv hok h ↦ hinv.step hinj hok h
  exact (h.preserves hstep (embedInv_initial e)).singleFlight hinj

/-! ## A run that strands a key -/

def sampleEmbedder : CachedEmbedder := ⟨"deterministic:8", 250000, id⟩

/-- One call that leads the text `a` and awaits the provider. -/
def sampleLeading : EmbedState :=
  (((initial.setCall 0 (.single "a" .lookup)).setCall 0 (.single "a" .entering)).insertKey
    (sampleEmbedder.key "a")).setCall 0 (.single "a" .requesting)

theorem EmbedReachable.callStep {ok : EmbedState → EmbedEvent → Prop} (h : EmbedReachable e ok s)
    {i : ℕ} (hstep : CallStep e s (s.calls i) action s' call') (hok : ok s (.caller i action)) :
    EmbedReachable e ok (s'.setCall i call') :=
  Transition.Run.snoc h hok (.call hstep)

theorem sampleLeading_reachable : EmbedReachable sampleEmbedder Orderly sampleLeading := by
  have hinitial : EmbedReachable sampleEmbedder Orderly initial := Transition.Run.refl _
  have hstart := hinitial.callStep (i := 0) (.startSingle "a") trivial
  have hmiss := hstart.callStep (i := 0) (show CallStep _ _ _ (.lookup none) _ _ by
    rw [setCall_self]
    exact .lookupMiss rfl) trivial
  exact hmiss.callStep (i := 0) (show CallStep _ _ _ (.enter ["a"]) _ _ by
    rw [setCall_self]
    exact .enterLeads rfl) trivial

theorem embed_singleFlight_sampleLeading : SingleFlight sampleEmbedder sampleLeading :=
  embed_singleFlight Function.injective_id sampleLeading_reachable

/-- A call dropped while it awaits the provider leaves its key behind. -/
theorem embed_strands_key :
    ¬ ∀ e : CachedEmbedder, Function.Injective e.hexDigest → ∀ s,
      EmbedReachable e (fun _ _ ↦ True) s → SingleFlight e s := by
  intro h
  have hdropped : EmbedReachable sampleEmbedder (fun _ _ ↦ True)
      (sampleLeading.setCall 0 .cancelled) :=
    EmbedReachable.callStep (i := 0) (sampleLeading_reachable.mono fun _ _ _ ↦ trivial) (by
      rw [sampleLeading, setCall_self]
      exact .cancels rfl) trivial
  obtain ⟨i, ⟨text, htext, -⟩, -⟩ := (h sampleEmbedder Function.injective_id _ hdropped).led
    (sampleEmbedder.key "a") 0 (by simp [sampleLeading, setCall, insertKey, initial])
  have hnone : ((sampleLeading.setCall 0 .cancelled).calls i).led = [] := by
    by_cases hi : i = 0
    · rw [hi, setCall_self]
      rfl
    · simp [sampleLeading, setCall, insertKey, initial, hi, Call.led]
  rw [hnone] at htext
  exact List.not_mem_nil htext

end Cortana
