import Swazz.FuzzRun

/-! What a checkpoint lets a resumed run skip has been done. -/
namespace Swazz.Fuzz

open StepSystem

/-- The loops come to one pair of indices before another. -/
def Before (p e p' e' : ℕ) : Prop := p < p' ∨ p = p' ∧ e < e'

/-- The loops do not come to the checkpoint's pair before the indices. -/
def Config.NotYet (cfg : Config) (c : Checkpoint) (p e : ℕ) : Prop :=
  ∀ p' e', Before p' e' p e → cfg.pair p' e' ≠ some (c.profile, c.endpoint)

/-- A resumed run skips the iteration: it is of a pair before the checkpoint's, or one of
the first iterations of that pair. -/
def Config.Skips (cfg : Config) (c : Checkpoint) (it : Iteration) : Prop :=
  cfg.hasPair c = true ∧ cfg.NotYet c it.p it.e ∧
    (cfg.pair it.p it.e = some (c.profile, c.endpoint) → it.i < c.iteration)

/-- The iteration has been completed in this run, was skipped as already done by the
checkpoint it resumed from, or had a payload not worth sending. -/
def State.Done (cfg : Config) (s : State) (it : Iteration) : Prop :=
  it ∈ s.completed ∨ it ∈ s.dropped ∨ ∃ c ∈ cfg.resumePoint, cfg.Skips c it

/-- Every iteration of the pair is done. -/
def State.PairDone (cfg : Config) (s : State) (p e : ℕ) : Prop :=
  ∀ i < cfg.requests p e, s.Done cfg ⟨p, e, i⟩

/-- Every iteration of every pair before the indices is done. -/
def State.DoneBefore (cfg : Config) (s : State) (p e : ℕ) : Prop :=
  ∀ p' e', Before p' e' p e → s.PairDone cfg p' e'

/-- The run is ending: what it still had to do may stay undone. -/
def State.Broken (s : State) : Prop :=
  s.stopped = true ∨ s.cancelled = true ∨ s.panicked = true

/-- The iterations of a pair below a bound are done, or a worker is at them. -/
def State.Walked (cfg : Config) (s : State) (p e bound : ℕ) : Prop :=
  ∀ i < bound, s.Done cfg ⟨p, e, i⟩ ∨ ⟨p, e, i⟩ ∈ s.workers ∨ s.Broken

/-- What holds of the iterations where the main loop is. -/
def State.MainSound (cfg : Config) (s : State) : Main → Prop
  | .baseline _ | .baselineWait => cfg.resumePoint = none
  | .profile p => s.Broken ∨ s.DoneBefore cfg p 0
  | .endpoint p e => s.Broken ∨ s.DoneBefore cfg p e
  | .walk p e i iterToSkip => s.DoneBefore cfg p e ∧ s.Walked cfg p e i ∧
      ∀ j < iterToSkip, ∃ c ∈ cfg.resumePoint, cfg.Skips c ⟨p, e, j⟩
  | .wait p e => s.DoneBefore cfg p e ∧ s.Walked cfg p e (cfg.requests p e)
  | .phases => s.Broken ∨ ∀ p e, s.PairDone cfg p e

/-- Where the run has not yet come to the pair it resumes from. -/
def State.ResumeSound (cfg : Config) (s : State) : Main → Prop
  | .profile p => s.resuming = none ∨ s.Broken ∨ ∀ c ∈ s.resuming, cfg.NotYet c p 0
  | .endpoint p e => s.resuming = none ∨ s.Broken ∨ ∀ c ∈ s.resuming, cfg.NotYet c p e
  | .walk _ _ _ _ | .wait _ _ => s.resuming = none
  | _ => True

/-- A result the aggregator is told of: one of a completed iteration, with all pairs before
it done, or one that is not of the loops. -/
def State.Vouched (cfg : Config) (s : State) (endpoint profile : String) (iteration : ℕ) : Prop :=
  profile = baseline ∨ profile = "" ∨
    ∃ p e i, iteration = i+1 ∧ cfg.pair p e = some (profile, endpoint) ∧
      ⟨p, e, i⟩ ∈ s.completed ∧ s.DoneBefore cfg p e

/-- The invariant of the loops and their workers. -/
structure State.LoopSound (cfg : Config) (s : State) : Prop where
  main : s.MainSound cfg s.main
  resume : s.ResumeSound cfg s.main
  resumes : ∀ c ∈ s.resuming, c ∈ cfg.resumePoint
  workers : ∀ w ∈ s.workers, w.i < cfg.requests w.p w.e ∧ s.DoneBefore cfg w.p w.e

/-- The watermark covers results of its own pair only. -/
structure State.WatermarkSound (cfg : Config) (s : State) (a : Aggregator) : Prop where
  fresh : a.iters.completed = none → a.iters.profile = ""
  vouched : ∀ l ∈ a.iters.completed, l ≠ [] ∧
    ∀ n ∈ l, s.Vouched cfg a.iters.endpoint a.iters.profile n
  covers : ContiguousPrefix.Covers (a.iters.completed.getD []) a.iters.contiguous
  latest : a.latestIteration ≤ a.iters.contiguous

/-- The invariant of the statistics. -/
structure State.StatsSound (cfg : Config) (s : State) : Prop where
  messages : ∀ m ∈ s.ch, s.Vouched cfg m.endpoint m.profile m.currentIteration
  watermark : s.WatermarkSound cfg s.aggregator
  loaded : ∀ profile ∈ s.aggregator.loaded, profile ≠ baseline ∧ profile ≠ ""

/-- What was done stays done, and a run that is ending stays so. -/
structure State.Grows (s t : State) : Prop where
  completed : s.completed ⊆ t.completed
  dropped : s.dropped ⊆ t.dropped
  broken : s.Broken → t.Broken

variable {cfg : Config} {s t : State}

theorem before_next_profile {p e p' : ℕ} (h : Before p e (p'+1) 0) (e' : ℕ) :
    Before p e p' e' ∨ p = p' ∧ e' ≤ e := by
  unfold Before at *
  omega

theorem before_next_endpoint {p e p' e' : ℕ} (h : Before p e p' (e'+1)) :
    Before p e p' e' ∨ p = p' ∧ e = e' := by
  unfold Before at *
  omega

theorem requests_eq_zero {p e : ℕ} (h : cfg.pair p e = none) : cfg.requests p e = 0 := by
  unfold Config.pair at h
  unfold Config.requests
  cases hp : cfg.getOrderedProfiles[p]? with
  | none => rfl
  | some profile =>
    cases he : cfg.endpoints[e]? with
    | none => rfl
    | some endpoint => simp [hp, he] at h

theorem pair_of_requests {p e i : ℕ} (h : i < cfg.requests p e) :
    ∃ profile endpoint, cfg.pair p e = some (profile, endpoint) := by
  cases hpair : cfg.pair p e with
  | none =>
    rw [requests_eq_zero hpair] at h
    omega
  | some pair => exact ⟨pair.1, pair.2, rfl⟩

theorem State.Grows.same (hcompleted : t.completed = s.completed)
    (hdropped : t.dropped = s.dropped) (hbroken : s.Broken → t.Broken) : s.Grows t where
  completed := by rw [hcompleted]; exact List.Subset.refl _
  dropped := by rw [hdropped]; exact List.Subset.refl _
  broken := hbroken

theorem State.Done.grows (hgrows : s.Grows t) {it : Iteration} (h : s.Done cfg it) :
    t.Done cfg it := by
  rcases h with h | h | h
  · exact Or.inl (hgrows.completed h)
  · exact Or.inr (Or.inl (hgrows.dropped h))
  · exact Or.inr (Or.inr h)

theorem State.DoneBefore.grows (hgrows : s.Grows t) {p e : ℕ} (h : s.DoneBefore cfg p e) :
    t.DoneBefore cfg p e :=
  fun p' e' hbefore i hi => (h p' e' hbefore i hi).grows hgrows

theorem State.Vouched.grows (hgrows : s.Grows t) {endpoint profile : String} {n : ℕ}
    (h : s.Vouched cfg endpoint profile n) : t.Vouched cfg endpoint profile n := by
  rcases h with h | h | ⟨p, e, i, hn, hpair, hdone, hbefore⟩
  · exact Or.inl h
  · exact Or.inr (Or.inl h)
  · exact Or.inr (Or.inr ⟨p, e, i, hn, hpair, hgrows.completed hdone, hbefore.grows hgrows⟩)

theorem State.WatermarkSound.grows (hgrows : s.Grows t) {a : Aggregator}
    (h : s.WatermarkSound cfg a) : t.WatermarkSound cfg a where
  fresh := h.fresh
  vouched l hl := ⟨(h.vouched l hl).1, fun n hn => ((h.vouched l hl).2 n hn).grows hgrows⟩
  covers := h.covers
  latest := h.latest

/-- The loops are where they were, and a worker that is gone has done its iteration, if the
run goes on. -/
theorem State.LoopSound.later (h : s.LoopSound cfg) (hgrows : s.Grows t)
    (hmain : t.main = s.main) (hresuming : t.resuming = s.resuming)
    (hkept : ∀ w ∈ s.workers, w ∈ t.workers ∨ t.Done cfg w ∨ t.Broken)
    (hold : ∀ w ∈ t.workers, w ∈ s.workers) : t.LoopSound cfg := by
  have hwalked {p e bound : ℕ} (hw : s.Walked cfg p e bound) : t.Walked cfg p e bound := by
    intro i hi
    rcases hw i hi with hdone | hworker | hbroken
    · exact Or.inl (hdone.grows hgrows)
    · rcases hkept _ hworker with hworker | hdone | hbroken
      · exact Or.inr (Or.inl hworker)
      · exact Or.inl hdone
      · exact Or.inr (Or.inr hbroken)
    · exact Or.inr (Or.inr (hgrows.broken hbroken))
  refine ⟨?_, ?_, ?_, ?_⟩
  · have hsound := h.main
    rw [hmain]
    cases hm : s.main with
    | baseline e => rw [hm] at hsound; exact hsound
    | baselineWait => rw [hm] at hsound; exact hsound
    | profile p =>
      rw [hm] at hsound
      exact hsound.imp hgrows.broken (State.DoneBefore.grows hgrows)
    | endpoint p e =>
      rw [hm] at hsound
      exact hsound.imp hgrows.broken (State.DoneBefore.grows hgrows)
    | walk p e i iterToSkip =>
      rw [hm] at hsound
      exact ⟨hsound.1.grows hgrows, hwalked hsound.2.1, hsound.2.2⟩
    | wait p e =>
      rw [hm] at hsound
      exact ⟨hsound.1.grows hgrows, hwalked hsound.2⟩
    | phases =>
      rw [hm] at hsound
      exact hsound.imp hgrows.broken fun hall p e i hi => (hall p e i hi).grows hgrows
  · have hsound := h.resume
    rw [hmain]
    cases hm : s.main with
    | profile p =>
      rw [hm] at hsound
      unfold State.ResumeSound at hsound ⊢
      rw [hresuming]
      exact hsound.imp_right (Or.imp_left hgrows.broken)
    | endpoint p e =>
      rw [hm] at hsound
      unfold State.ResumeSound at hsound ⊢
      rw [hresuming]
      exact hsound.imp_right (Or.imp_left hgrows.broken)
    | walk p e i iterToSkip =>
      rw [hm] at hsound
      exact hresuming.trans hsound
    | wait p e =>
      rw [hm] at hsound
      exact hresuming.trans hsound
    | _ => trivial
  · rw [hresuming]
    exact h.resumes
  · intro w hw
    have hworker := h.workers w (hold w hw)
    exact ⟨hworker.1, hworker.2.grows hgrows⟩

theorem State.StatsSound.later (h : s.StatsSound cfg) (hgrows : s.Grows t)
    (haggregator : t.aggregator = s.aggregator)
    (hmessages : ∀ m ∈ t.ch, m ∈ s.ch ∨ t.Vouched cfg m.endpoint m.profile m.currentIteration) :
    t.StatsSound cfg where
  messages m hm := (hmessages m hm).elim (fun hold => (h.messages m hold).grows hgrows) id
  watermark := by
    rw [haggregator]
    exact h.watermark.grows hgrows
  loaded := by
    rw [haggregator]
    exact h.loaded

theorem State.DoneBefore.nextProfile {p e : ℕ} (h : s.DoneBefore cfg p e)
    (hrest : ∀ e', e ≤ e' → s.PairDone cfg p e') : s.DoneBefore cfg (p+1) 0 := by
  intro p' e' hbefore
  rcases before_next_profile hbefore e with hlt | ⟨rfl, hle⟩
  · exact h p' e' hlt
  · exact hrest e' hle

theorem State.DoneBefore.nextEndpoint {p e : ℕ} (h : s.DoneBefore cfg p e)
    (hpair : s.PairDone cfg p e) : s.DoneBefore cfg p (e+1) := by
  intro p' e' hbefore
  rcases before_next_endpoint hbefore with hlt | ⟨rfl, rfl⟩
  · exact h p' e' hlt
  · exact hpair

theorem Config.NotYet.nextProfile {c : Checkpoint} {p e : ℕ} (h : cfg.NotYet c p e)
    (hrest : ∀ e', e ≤ e' → cfg.pair p e' ≠ some (c.profile, c.endpoint)) :
    cfg.NotYet c (p+1) 0 := by
  intro p' e' hbefore
  rcases before_next_profile hbefore e with hlt | ⟨rfl, hle⟩
  · exact h p' e' hlt
  · exact hrest e' hle

theorem Config.NotYet.nextEndpoint {c : Checkpoint} {p e : ℕ} (h : cfg.NotYet c p e)
    (hpair : cfg.pair p e ≠ some (c.profile, c.endpoint)) : cfg.NotYet c p (e+1) := by
  intro p' e' hbefore
  rcases before_next_endpoint hbefore with hlt | ⟨rfl, rfl⟩
  · exact h p' e' hlt
  · exact hpair

theorem State.LoopSound.moves (h : s.LoopSound cfg) {m : Main} (hmain : s.MainSound cfg m)
    (hresume : s.ResumeSound cfg m) : ({ s with main := m } : State).LoopSound cfg where
  main := by
    cases m with
    | _ => exact hmain
  resume := by
    cases m with
    | _ => exact hresume
  resumes := h.resumes
  workers := h.workers

/-- A pair that comes before the one the run resumes from is skipped. -/
theorem pairDone_of_notYet (h : s.LoopSound cfg) {c : Checkpoint} (hc : c ∈ s.resuming)
    {p e : ℕ} (hnot : cfg.NotYet c p e) (hpair : cfg.pair p e ≠ some (c.profile, c.endpoint)) :
    s.PairDone cfg p e := by
  intro i hi
  have hpoint := h.resumes c hc
  have hvalid : cfg.hasPair c = true := (Option.mem_filter_iff.mp hpoint).2
  exact Or.inr (Or.inr ⟨c, hpoint, hvalid, hnot, fun heq => absurd heq hpair⟩)

theorem State.LoopSound.atProfile (h : s.LoopSound cfg) {p : ℕ} (hp : s.main = .profile p) :
    (s.atProfile cfg p).LoopSound cfg := by
  have hmain := h.main
  have hresume := h.resume
  rw [hp] at hmain hresume
  unfold State.atProfile
  cases hprofile : cfg.getOrderedProfiles[p]? with
  | none =>
    apply h.moves (m := .phases) ?_ trivial
    refine hmain.imp_right fun hdone p' e i hi => ?_
    obtain ⟨profile, endpoint, hpair⟩ := pair_of_requests hi
    have hlt : p' < p := by
      by_contra hge
      have hlen : cfg.getOrderedProfiles.length ≤ p' := by
        have := List.getElem?_eq_none_iff.mp hprofile
        omega
      simp [Config.pair, List.getElem?_eq_none_iff.mpr hlen] at hpair
    exact hdone p' e (Or.inl hlt) i hi
  | some profile =>
    simp only
    split_ifs with hstopped hskip
    · exact h.moves (m := .phases) (Or.inl (Or.inl hstopped)) trivial
    · obtain ⟨c, hc, hne⟩ := (Option.any_eq_true _ _).mp hskip
      have hdiffers (e : ℕ) : cfg.pair p e ≠ some (c.profile, c.endpoint) := by
        intro heq
        have hprof : profile ≠ c.profile := of_decide_eq_true hne
        unfold Config.pair at heq
        rw [hprofile] at heq
        obtain ⟨_, _, hpair⟩ := Option.map_eq_some_iff.mp heq
        exact hprof (congrArg Prod.fst hpair)
      rcases hresume with hnone | hbroken | hnot
      · rw [hnone] at hc
        cases hc
      · exact h.moves (Or.inl hbroken) (Or.inr (Or.inl hbroken))
      · have hpoint (c' : Checkpoint) (hc' : c' ∈ s.resuming) : c' = c :=
          Option.mem_unique hc' hc
        apply h.moves
        · refine hmain.imp_right fun hdone => hdone.nextProfile fun e' _ => ?_
          apply pairDone_of_notYet h hc ?_ (hdiffers e')
          intro p'' e'' hbefore
          rcases hbefore with hlt | ⟨rfl, -⟩
          · exact hnot c hc p'' e'' (Or.inl hlt)
          · exact hdiffers e''
        · refine Or.inr (Or.inr fun c' hc' => ?_)
          rw [hpoint c' hc']
          exact (hnot c hc).nextProfile fun e' _ => hdiffers e'
    · exact (h.moves (m := .endpoint p 0) hmain hresume).later (.same rfl rfl id)
        rfl rfl (fun w hw => Or.inl hw) fun w hw => hw

theorem State.LoopSound.atEndpoint (h : s.LoopSound cfg) {p e : ℕ}
    (he : s.main = .endpoint p e) (hturn : s.panicked = true → s.cancelled = true) :
    (s.atEndpoint cfg p e).LoopSound cfg := by
  have hmain := h.main
  have hresume := h.resume
  rw [he] at hmain hresume
  unfold State.atEndpoint
  cases hendpoint : cfg.endpoints[e]? with
  | none =>
    have hempty (e' : ℕ) (hle : e ≤ e') : cfg.pair p e' = none := by
      have hlen : cfg.endpoints.length ≤ e' := by
        have := List.getElem?_eq_none_iff.mp hendpoint
        omega
      simp [Config.pair, List.getElem?_eq_none_iff.mpr hlen]
    apply h.moves
    · refine hmain.imp_right fun hdone => hdone.nextProfile fun e' hle i hi => ?_
      rw [requests_eq_zero (hempty e' hle)] at hi
      omega
    · refine hresume.imp_right (Or.imp_right fun hnot c hc => ?_)
      apply (hnot c hc).nextProfile
      intro e' hle
      rw [hempty e' hle]
      simp
  | some endpoint =>
    simp only
    split_ifs with hended hskip
    · have hbroken : s.Broken := by
        rcases Bool.or_eq_true_iff.mp hended with hstopped | hcancelled
        · exact Or.inl hstopped
        · exact Or.inr (Or.inl hcancelled)
      exact h.moves (Or.inl hbroken) (Or.inr (Or.inl hbroken))
    · obtain ⟨c, hc, hne⟩ := (Option.any_eq_true _ _).mp hskip
      have hdiffers : cfg.pair p e ≠ some (c.profile, c.endpoint) := by
        intro heq
        have hkey : endpoint.key ≠ c.endpoint := of_decide_eq_true hne
        unfold Config.pair at heq
        rw [hendpoint] at heq
        obtain ⟨_, _, hpair⟩ := Option.bind_eq_some_iff.mp heq
        exact hkey (congrArg Prod.snd (Option.some.inj hpair))
      rcases hresume with hnone | hbroken | hnot
      · rw [hnone] at hc
        cases hc
      · exact h.moves (Or.inl hbroken) (Or.inr (Or.inl hbroken))
      · apply h.moves
        · refine hmain.imp_right fun hdone => hdone.nextEndpoint ?_
          exact pairDone_of_notYet h hc (hnot c hc) hdiffers
        · refine Or.inr (Or.inr fun c' hc' => ?_)
          rw [Option.mem_unique hc' hc]
          exact (hnot c hc).nextEndpoint hdiffers
    · have hgoes : ¬ s.Broken := by
        simp only [Bool.or_eq_true, not_or, Bool.not_eq_true] at hended
        rintro (hstopped | hcancelled | hpanicked)
        · rw [hended.1] at hstopped
          cases hstopped
        · rw [hended.2] at hcancelled
          cases hcancelled
        · rw [hturn hpanicked] at hended
          cases hended.2
      refine ⟨⟨hmain.resolve_left hgoes, fun i hi => absurd hi (Nat.not_lt_zero i), ?_⟩, rfl,
        by simp, h.workers⟩
      intro j hj
      cases hc : s.resuming with
      | none =>
        rw [hc] at hj
        cases hj
      | some c =>
        rw [hc] at hj
        have hpoint := h.resumes c hc
        have hnot : cfg.NotYet c p e := by
          rcases hresume with hnone | hbroken | hnot
          · rw [hnone] at hc
            cases hc
          · exact absurd hbroken hgoes
          · exact hnot c hc
        exact ⟨c, hpoint, (Option.mem_filter_iff.mp hpoint).2, hnot, fun _ => hj⟩

theorem State.LoopSound.atWalk (h : s.LoopSound cfg) {p e i iterToSkip : ℕ} {duplicate : Bool}
    (hw : s.main = .walk p e i iterToSkip) :
    (s.atWalk cfg p e i iterToSkip duplicate).LoopSound cfg := by
  have hmain := h.main
  have hresume := h.resume
  rw [hw] at hmain hresume
  obtain ⟨hbefore, hwalked, hskip⟩ := hmain
  have hended (hbroken : s.Broken) : s.Walked cfg p e (cfg.requests p e) :=
    fun _ _ => Or.inr (Or.inr hbroken)
  have hnext (hthis : s.Done cfg ⟨p, e, i⟩ ∨ ⟨p, e, i⟩ ∈ s.workers ∨ s.Broken) :
      s.Walked cfg p e (i+1) := by
    intro j hj
    by_cases hji : j = i
    · rw [hji]
      exact hthis
    · exact hwalked j (by omega)
  unfold State.atWalk
  split_ifs with hlast hpast hstopped hdup hcancelled
  · exact h.moves (m := .wait p e) ⟨hbefore, fun j hj => hwalked j (by omega)⟩ hresume
  · refine h.moves (m := .walk p e (i+1) iterToSkip) ⟨hbefore, hnext (Or.inl ?_), hskip⟩ hresume
    exact Or.inr (Or.inr (hskip i hpast))
  · exact h.moves (m := .wait p e) ⟨hbefore, hended (Or.inl hstopped)⟩ hresume
  · have hgrows : s.Grows { s with dropped := s.dropped ++ [⟨p, e, i⟩] } :=
      ⟨fun _ hx => hx, List.subset_append_left _ _, id⟩
    have hdropped : ({ s with dropped := s.dropped ++ [⟨p, e, i⟩] } : State).LoopSound cfg :=
      h.later hgrows rfl rfl (fun w hw => Or.inl hw) fun w hw => hw
    refine hdropped.moves (m := .walk p e (i+1) iterToSkip)
      ⟨hbefore.grows hgrows, ?_, hskip⟩ hresume
    intro j hj
    by_cases hji : j = i
    · rw [hji]
      exact Or.inl (Or.inr (Or.inl (by simp)))
    · exact (hwalked j (by omega)).imp_left (State.Done.grows hgrows)
  · exact h.moves (m := .wait p e) ⟨hbefore, hended (Or.inr (Or.inl hcancelled))⟩ hresume
  · refine ⟨⟨hbefore, ?_, hskip⟩, hresume, h.resumes, ?_⟩
    · intro j hj
      by_cases hji : j = i
      · rw [hji]
        exact Or.inr (Or.inl (by simp))
      · exact (hwalked j (by omega)).imp_right (Or.imp_left (List.mem_append_left _))
    · intro w hw
      rcases List.mem_append.mp hw with hold | hnew
      · exact h.workers w hold
      · rw [List.mem_singleton.mp hnew]
        exact ⟨Nat.lt_of_not_le hlast, hbefore⟩

/-- The main loop is at the top of the loop over the endpoints. -/
def Main.atPair : Main → Bool
  | .endpoint _ _ => true
  | _ => false

theorem State.LoopSound.advance (h : s.LoopSound cfg) {skip : Bool}
    (hturn : s.main.atPair = true → s.panicked = true → s.cancelled = true)
    (hstep : s.advance cfg skip = some t) : t.LoopSound cfg := by
  have hmain := h.main
  have hresume := h.resume
  unfold State.advance at hstep
  cases hm : s.main with
  | baseline e =>
    rw [hm] at hmain hstep
    obtain rfl := Option.some.inj hstep
    unfold State.atBaseline
    split_ifs
    · exact h.moves (m := .baselineWait) hmain trivial
    · exact h.moves (m := .baseline (e+1)) hmain trivial
    · exact (h.moves (m := .baseline (e+1)) hmain trivial).later
        (.same rfl rfl id) rfl rfl (fun w hw => Or.inl hw) fun w hw => hw
  | baselineWait =>
    rw [hm] at hmain hstep
    obtain ⟨-, hstep⟩ := Option.ite_none_right_eq_some.mp hstep
    obtain rfl := Option.some.inj hstep
    apply h.moves (m := .profile 0)
    · refine Or.inr fun p e hbefore => ?_
      rcases hbefore with hlt | ⟨-, hlt⟩ <;> omega
    · refine Or.inl (Option.eq_none_iff_forall_not_mem.mpr fun c hc => ?_)
      have hpoint := h.resumes c hc
      rw [hmain] at hpoint
      cases hpoint
  | profile p =>
    rw [hm] at hstep
    obtain rfl := Option.some.inj hstep
    exact h.atProfile hm
  | endpoint p e =>
    rw [hm] at hstep
    obtain rfl := Option.some.inj hstep
    exact h.atEndpoint hm (hturn (by rw [hm]; rfl))
  | walk p e i iterToSkip =>
    rw [hm] at hstep
    obtain rfl := Option.some.inj hstep
    exact h.atWalk hm
  | wait p e =>
    rw [hm] at hmain hresume hstep
    obtain ⟨hidle, hstep⟩ := Option.ite_none_right_eq_some.mp hstep
    obtain rfl := Option.some.inj hstep
    have hnone : s.workers = [] := List.isEmpty_iff.mp hidle
    apply h.moves (m := .endpoint p (e+1)) ?_ (Or.inl hresume)
    by_cases hbroken : s.Broken
    · exact Or.inl hbroken
    · refine Or.inr (hmain.1.nextEndpoint fun i hi => ?_)
      rcases hmain.2 i hi with hdone | hworker | hends
      · exact hdone
      · rw [hnone] at hworker
        cases hworker
      · exact absurd hends hbroken
  | phases =>
    rw [hm] at hstep
    cases hstep

/-- The watermark a result is added to is of the result's pair. -/
theorem switch_sound {a : Aggregator} (h : s.WatermarkSound cfg a) (endpoint profile : String) :
    ∃ l, a.iters.switch endpoint profile =
        ⟨endpoint, profile, some l, (a.iters.switch endpoint profile).contiguous⟩ ∧
      (∀ n ∈ l, s.Vouched cfg endpoint profile n) ∧
      ContiguousPrefix.Covers l (a.iters.switch endpoint profile).contiguous := by
  unfold IterationWatermark.switch
  split_ifs with hfresh
  · exact ⟨[], rfl, by simp, ContiguousPrefix.covers_zero []⟩
  · simp only [not_or, not_not, Bool.not_eq_true, Option.isNone_eq_false_iff] at hfresh
    obtain ⟨hsome, rfl, rfl⟩ := hfresh
    obtain ⟨l, hl⟩ := Option.isSome_iff_exists.mp hsome
    have hcovers := h.covers
    rw [hl] at hcovers
    refine ⟨l, ?_, (h.vouched l hl).2, hcovers⟩
    rw [← hl]

theorem State.WatermarkSound.handle {a : Aggregator} (h : s.WatermarkSound cfg a)
    {m : StatsMsg} (hm : s.Vouched cfg m.endpoint m.profile m.currentIteration)
    (progress : ℕ) : s.WatermarkSound cfg (a.handle progress m) := by
  obtain ⟨l, hswitch, hvouched, hcovers⟩ := switch_sound h m.endpoint m.profile
  unfold Aggregator.handle IterationWatermark.complete
  rw [hswitch]
  simp only [Option.getD_some]
  have hmore : ContiguousPrefix.Covers (m.currentIteration :: l)
      (a.iters.switch m.endpoint m.profile).contiguous :=
    hcovers.mono (List.subset_cons_self _ _)
  refine ⟨fun hno => absurd hno (Option.some_ne_none _), ?_, hmore.advance _, min_le_left _ _⟩
  intro l' hl'
  obtain rfl := Option.some.inj hl'
  refine ⟨List.cons_ne_nil _ _, fun n hn => ?_⟩
  rcases List.mem_cons.mp hn with rfl | hold
  · exact hm
  · exact hvouched n hold

theorem finish_sound (hloop : s.LoopSound cfg) (hstats : s.StatsSound cfg) {k : ℕ}
    {outcome : Outcome} (hstep : s.finish cfg k outcome = some t) :
    t.LoopSound cfg ∧ t.StatsSound cfg := by
  unfold State.finish at hstep
  cases hk : s.workers[k]? with
  | none =>
    rw [hk] at hstep
    cases hstep
  | some it =>
    rw [hk] at hstep
    have hmem : it ∈ s.workers := List.mem_of_getElem? hk
    have hleft (w : Iteration) (hw : w ∈ s.workers) : w ∈ s.workers.eraseIdx k ∨ w = it := by
      by_cases hwk : w ∈ s.workers.eraseIdx k
      · exact Or.inl hwk
      · obtain ⟨j, hj⟩ := List.mem_iff_getElem?.mp hw
        have hjk : j = k := by
          by_contra hne
          exact hwk (List.mem_eraseIdx_iff_getElem?.mpr ⟨j, hne, hj⟩)
        rw [hjk, hk] at hj
        exact Or.inr (Option.some.inj hj).symm
    have hold (w : Iteration) (hw : w ∈ s.workers.eraseIdx k) : w ∈ s.workers :=
      List.mem_of_mem_eraseIdx hw
    cases outcome with
    | result =>
      obtain rfl := Option.some.inj hstep
      have hworker := hloop.workers it hmem
      obtain ⟨profile, endpoint, hpair⟩ := pair_of_requests hworker.1
      have hgrows : s.Grows { s with
          workers := s.workers.eraseIdx k, ch := s.ch ++ [State.messageOf cfg it]
          completed := s.completed ++ [it] } :=
        ⟨List.subset_append_left _ _, fun _ hx => hx, id⟩
      refine ⟨hloop.later hgrows rfl rfl ?_ hold, hstats.later hgrows rfl ?_⟩
      · intro w hw
        rcases hleft w hw with hstays | rfl
        · exact Or.inl hstays
        · exact Or.inr (Or.inl (Or.inl (by simp)))
      · intro m hm
        rcases List.mem_append.mp hm with hm | hm
        · exact Or.inl hm
        · obtain rfl := List.mem_singleton.mp hm
          refine Or.inr (Or.inr (Or.inr ⟨it.p, it.e, it.i, rfl, ?_, by simp, ?_⟩))
          · rw [hpair]
            simp [State.messageOf, hpair]
          · exact hworker.2.grows hgrows
    | notSent =>
      obtain ⟨hends, hstep⟩ := Option.ite_none_right_eq_some.mp hstep
      obtain rfl := Option.some.inj hstep
      have hbroken : s.Broken := by
        rcases Bool.or_eq_true_iff.mp hends with hstopped | hcancelled
        · exact Or.inl hstopped
        · exact Or.inr (Or.inl hcancelled)
      have hgrows : s.Grows { s with workers := s.workers.eraseIdx k } := .same rfl rfl id
      exact ⟨hloop.later hgrows rfl rfl (fun w _ => Or.inr (Or.inr hbroken)) hold,
        hstats.later hgrows rfl fun m hm => Or.inl hm⟩
    | panic =>
      obtain rfl := Option.some.inj hstep
      have hgrows : s.Grows { s with workers := s.workers.eraseIdx k, panicked := true } :=
        .same rfl rfl fun _ => Or.inr (Or.inr rfl)
      exact ⟨hloop.later hgrows rfl rfl (fun w _ => Or.inr (Or.inr (Or.inr (Or.inr rfl)))) hold,
        hstats.later hgrows rfl fun m hm => Or.inl hm⟩

theorem baselineEnds_sound (hloop : s.LoopSound cfg) (hstats : s.StatsSound cfg) {k : ℕ}
    {outcome : Outcome} (hstep : s.baselineEnds cfg k outcome = some t) :
    t.LoopSound cfg ∧ t.StatsSound cfg := by
  have hlater {u : State} (hgrows : s.Grows u) (hmain : u.main = s.main)
      (hresuming : u.resuming = s.resuming) (hworkers : u.workers = s.workers)
      (haggregator : u.aggregator = s.aggregator)
      (hch : ∀ m ∈ u.ch, m ∈ s.ch ∨ m.profile = baseline) :
      u.LoopSound cfg ∧ u.StatsSound cfg := by
    constructor
    · apply hloop.later hgrows hmain hresuming
      · intro w hw
        rw [hworkers]
        exact Or.inl hw
      · intro w hw
        rw [hworkers] at hw
        exact hw
    · apply hstats.later hgrows haggregator
      exact fun m hm => (hch m hm).imp_right Or.inl
  unfold State.baselineEnds at hstep
  cases hk : s.baselines[k]? with
  | none =>
    rw [hk] at hstep
    cases hstep
  | some e =>
    rw [hk] at hstep
    cases outcome with
    | result =>
      obtain rfl := Option.some.inj hstep
      refine hlater (.same rfl rfl id) rfl rfl rfl rfl fun m hm => ?_
      rcases List.mem_append.mp hm with hm | hm
      · exact Or.inl hm
      · rw [List.mem_singleton.mp hm]
        exact Or.inr rfl
    | notSent =>
      obtain ⟨-, hstep⟩ := Option.ite_none_right_eq_some.mp hstep
      obtain rfl := Option.some.inj hstep
      exact hlater (.same rfl rfl id) rfl rfl rfl rfl fun m hm => Or.inl hm
    | panic =>
      obtain rfl := Option.some.inj hstep
      exact hlater (.same rfl rfl fun _ => Or.inr (Or.inr rfl)) rfl rfl rfl rfl
        fun m hm => Or.inl hm

/-- The main loop leaves the statistics alone. -/
structure State.LeavesStats (s t : State) : Prop where
  aggregator : t.aggregator = s.aggregator
  ch : t.ch = s.ch
  panicked : t.panicked = s.panicked
  grows : s.Grows t

theorem leavesStats_advance {skip : Bool} (hstep : s.advance cfg skip = some t) :
    s.LeavesStats t := by
  unfold State.advance at hstep
  split at hstep
  · obtain rfl := Option.some.inj hstep
    unfold State.atBaseline
    split_ifs
    · exact ⟨rfl, rfl, rfl, .same rfl rfl id⟩
    · exact ⟨rfl, rfl, rfl, .same rfl rfl id⟩
    · exact ⟨rfl, rfl, rfl, .same rfl rfl id⟩
  · obtain ⟨-, hstep⟩ := Option.ite_none_right_eq_some.mp hstep
    obtain rfl := Option.some.inj hstep
    exact ⟨rfl, rfl, rfl, .same rfl rfl id⟩
  · obtain rfl := Option.some.inj hstep
    unfold State.atProfile
    split
    · exact ⟨rfl, rfl, rfl, .same rfl rfl id⟩
    · split_ifs
      · exact ⟨rfl, rfl, rfl, .same rfl rfl id⟩
      · exact ⟨rfl, rfl, rfl, .same rfl rfl id⟩
      · exact ⟨rfl, rfl, rfl, .same rfl rfl id⟩
  · obtain rfl := Option.some.inj hstep
    unfold State.atEndpoint
    split
    · exact ⟨rfl, rfl, rfl, .same rfl rfl id⟩
    · split_ifs
      · exact ⟨rfl, rfl, rfl, .same rfl rfl id⟩
      · exact ⟨rfl, rfl, rfl, .same rfl rfl id⟩
      · exact ⟨rfl, rfl, rfl, .same rfl rfl id⟩
  · obtain rfl := Option.some.inj hstep
    unfold State.atWalk
    split_ifs
    · exact ⟨rfl, rfl, rfl, .same rfl rfl id⟩
    · exact ⟨rfl, rfl, rfl, .same rfl rfl id⟩
    · exact ⟨rfl, rfl, rfl, .same rfl rfl id⟩
    · exact ⟨rfl, rfl, rfl, fun _ hx => hx, List.subset_append_left _ _, id⟩
    · exact ⟨rfl, rfl, rfl, .same rfl rfl id⟩
    · exact ⟨rfl, rfl, rfl, .same rfl rfl id⟩
  · obtain ⟨-, hstep⟩ := Option.ite_none_right_eq_some.mp hstep
    obtain rfl := Option.some.inj hstep
    exact ⟨rfl, rfl, rfl, .same rfl rfl id⟩
  · cases hstep

/-- The main loop starts no pair between a worker's panic and the end of the run's context
that follows it. -/
def Label.inTurn (s : State) : Label → Prop
  | .main _ => s.main.atPair = true → s.panicked = true → s.cancelled = true
  | _ => True

theorem sound_step (hloop : s.LoopSound cfg) (hstats : s.StatsSound cfg) {a : Label}
    (hturn : a.inTurn s) (hstep : step cfg s a = some t) :
    t.LoopSound cfg ∧ t.StatsSound cfg := by
  have hkept (w : Iteration) (hw : w ∈ s.workers) : w ∈ s.workers ∨ t.Done cfg w ∨ t.Broken :=
    Or.inl hw
  have hsame (m : StatsMsg) (hm : m ∈ s.ch) :
      m ∈ s.ch ∨ t.Vouched cfg m.endpoint m.profile m.currentIteration := Or.inl hm
  cases a with
  | main skip =>
    have hleaves := leavesStats_advance hstep
    refine ⟨hloop.advance hturn hstep, hstats.later hleaves.grows hleaves.aggregator ?_⟩
    intro m hm
    rw [hleaves.ch] at hm
    exact Or.inl hm
  | finish k outcome => exact finish_sound hloop hstats hstep
  | baselineStarts k =>
    obtain ⟨e, -, rfl⟩ := Option.map_eq_some_iff.mp hstep
    exact ⟨hloop.later (.same rfl rfl id) rfl rfl hkept fun w hw => hw,
      hstats.later (.same rfl rfl id) rfl hsame⟩
  | baselineEnds k outcome => exact baselineEnds_sound hloop hstats hstep
  | recover =>
    obtain ⟨hpanicked, hstep⟩ := Option.ite_none_right_eq_some.mp hstep
    obtain rfl := Option.some.inj hstep
    have hgrows : s.Grows { s with cancelled := true } := .same rfl rfl fun _ => Or.inr (Or.inl rfl)
    exact ⟨hloop.later hgrows rfl rfl hkept fun w hw => hw, hstats.later hgrows rfl hsame⟩
  | stop =>
    obtain rfl := Option.some.inj hstep
    have hgrows : s.Grows { s with stopped := true } := .same rfl rfl fun _ => Or.inl rfl
    exact ⟨hloop.later hgrows rfl rfl hkept fun w hw => hw, hstats.later hgrows rfl hsame⟩
  | cancel =>
    obtain rfl := Option.some.inj hstep
    have hgrows : s.Grows { s with cancelled := true } := .same rfl rfl fun _ => Or.inr (Or.inl rfl)
    exact ⟨hloop.later hgrows rfl rfl hkept fun w hw => hw, hstats.later hgrows rfl hsame⟩
  | phase profile =>
    obtain ⟨-, hstep⟩ := Option.ite_none_right_eq_some.mp hstep
    obtain rfl := Option.some.inj hstep
    exact ⟨hloop.later (.same rfl rfl id) rfl rfl hkept fun w hw => hw,
      hstats.later (.same rfl rfl id) rfl hsame⟩
  | phaseEndpoint endpoint =>
    obtain ⟨-, hstep⟩ := Option.ite_none_right_eq_some.mp hstep
    obtain rfl := Option.some.inj hstep
    exact ⟨hloop.later (.same rfl rfl id) rfl rfl hkept fun w hw => hw,
      hstats.later (.same rfl rfl id) rfl hsame⟩
  | phaseStat iteration total =>
    obtain ⟨-, hstep⟩ := Option.ite_none_right_eq_some.mp hstep
    obtain rfl := Option.some.inj hstep
    refine ⟨hloop.later (.same rfl rfl id) rfl rfl hkept fun w hw => hw,
      hstats.later (.same rfl rfl id) rfl fun m hm => ?_⟩
    rcases List.mem_append.mp hm with hm | hm
    · exact Or.inl hm
    · rw [List.mem_singleton.mp hm]
      exact Or.inr (Or.inr (Or.inl rfl))
  | take =>
    cases hl : s.aggregator.loaded with
    | some profile =>
      unfold step at hstep
      simp only [hl] at hstep
      cases hstep
    | none =>
      cases hch : s.ch with
      | nil =>
        unfold step at hstep
        simp only [hl, hch] at hstep
        cases hstep
      | cons m rest =>
        unfold step at hstep
        simp only [hl, hch] at hstep
        obtain rfl := Option.some.inj hstep
        have hgrows : s.Grows { s with
            ch := rest, aggregator := s.aggregator.handle s.totalRequests m } := .same rfl rfl id
        have hm : s.Vouched cfg m.endpoint m.profile m.currentIteration :=
          hstats.messages m (by rw [hch]; exact List.mem_cons_self)
        refine ⟨hloop.later hgrows rfl rfl hkept fun w hw => hw, ?_, ?_, ?_⟩
        · intro m' hm'
          have hold : m' ∈ s.ch := by
            rw [hch]
            exact List.mem_cons_of_mem m hm'
          exact (hstats.messages m' hold).grows hgrows
        · exact (hstats.watermark.handle hm s.totalRequests).grows hgrows
        · intro profile hprofile
          rw [show (s.aggregator.handle s.totalRequests m).loaded = none from hl] at hprofile
          cases hprofile
  | tick =>
    obtain ⟨-, hstep⟩ := Option.ite_none_right_eq_some.mp hstep
    obtain rfl := Option.some.inj hstep
    unfold State.tick
    simp only
    split_ifs with hdirty hdue
    · have hwatermark := hstats.watermark
      refine ⟨hloop.later (.same rfl rfl id) rfl rfl (fun w hw => Or.inl hw) fun w hw => hw,
        hstats.messages, ⟨hwatermark.fresh, hwatermark.vouched, hwatermark.covers,
          hwatermark.latest⟩, ?_⟩
      intro profile hprofile
      obtain rfl := Option.some.inj hprofile
      exact ⟨hdue.1, hdue.2.1⟩
    · have hwatermark := hstats.watermark
      refine ⟨hloop.later (.same rfl rfl id) rfl rfl (fun w hw => Or.inl hw) fun w hw => hw,
        hstats.messages, ⟨hwatermark.fresh, hwatermark.vouched, hwatermark.covers,
          hwatermark.latest⟩, ?_⟩
      intro profile hprofile
      cases hprofile
    · exact ⟨hloop, hstats⟩
  | broadcast =>
    obtain ⟨profile, -, rfl⟩ := Option.map_eq_some_iff.mp hstep
    have hwatermark := hstats.watermark
    refine ⟨hloop.later (.same rfl rfl id) rfl rfl hkept fun w hw => hw,
      hstats.messages, ⟨hwatermark.fresh, hwatermark.vouched, hwatermark.covers,
        hwatermark.latest⟩, ?_⟩
    intro profile hprofile
    cases hprofile

theorem not_before_zero {p e : ℕ} : ¬ Before p e 0 0 := by
  unfold Before
  omega

theorem start_sound (cfg : Config) (profile endpoint : String) (requests : ℕ) :
    (State.start cfg profile endpoint requests).LoopSound cfg ∧
      (State.start cfg profile endpoint requests).StatsSound cfg := by
  constructor
  · refine ⟨?_, ?_, fun c hc => hc, fun w hw => absurd hw List.not_mem_nil⟩
    · cases hpoint : cfg.resumePoint with
      | none => simp [State.start, hpoint, State.MainSound]
      | some c =>
        have hbefore : (State.start cfg profile endpoint requests).DoneBefore cfg 0 0 :=
          fun p e hbefore => absurd hbefore not_before_zero
        rw [show (State.start cfg profile endpoint requests).main = .profile 0 by
          simp [State.start, hpoint]]
        exact Or.inr hbefore
    · cases hpoint : cfg.resumePoint with
      | none => simp [State.start, hpoint, State.ResumeSound]
      | some c =>
        rw [show (State.start cfg profile endpoint requests).main = .profile 0 by
          simp [State.start, hpoint]]
        exact Or.inr (Or.inr fun c hc p e hbefore => absurd hbefore not_before_zero)
  · exact ⟨fun m hm => absurd hm List.not_mem_nil,
      ⟨fun _ => rfl, fun l hl => absurd hl (by simp [State.start, Aggregator.init,
        IterationWatermark.empty]), ContiguousPrefix.covers_zero _, le_rfl⟩,
      fun profile hp => absurd hp (by simp [State.start, Aggregator.init])⟩

theorem reaches_sound {profile endpoint : String} {requests : ℕ}
    (h : ReachesUnder (step cfg) (fun s a => a.inTurn s)
      (State.start cfg profile endpoint requests) s) : s.LoopSound cfg ∧ s.StatsSound cfg := by
  apply h.invariant (I := fun s => s.LoopSound cfg ∧ s.StatsSound cfg)
    (start_sound cfg profile endpoint requests)
  exact fun u a v hu hturn hstep => sound_step hu.1 hu.2 hturn hstep

/-- A worker's panic is not taken back. -/
theorem panicked_step {a : Label} (hstep : step cfg s a = some t) (hs : s.panicked = true) :
    t.panicked = true := by
  cases a with
  | main skip =>
    rw [(leavesStats_advance hstep).panicked]
    exact hs
  | finish k outcome =>
    change s.finish cfg k outcome = some t at hstep
    unfold State.finish at hstep
    split at hstep
    · cases hstep
    · cases outcome with
      | result =>
        obtain rfl := Option.some.inj hstep
        exact hs
      | notSent =>
        obtain ⟨-, hstep⟩ := Option.ite_none_right_eq_some.mp hstep
        obtain rfl := Option.some.inj hstep
        exact hs
      | panic =>
        obtain rfl := Option.some.inj hstep
        rfl
  | baselineEnds k outcome =>
    change s.baselineEnds cfg k outcome = some t at hstep
    unfold State.baselineEnds at hstep
    split at hstep
    · cases hstep
    · cases outcome with
      | result =>
        obtain rfl := Option.some.inj hstep
        exact hs
      | notSent =>
        obtain ⟨-, hstep⟩ := Option.ite_none_right_eq_some.mp hstep
        obtain rfl := Option.some.inj hstep
        exact hs
      | panic =>
        obtain rfl := Option.some.inj hstep
        rfl
  | baselineStarts k =>
    obtain ⟨e, -, rfl⟩ := Option.map_eq_some_iff.mp hstep
    exact hs
  | broadcast =>
    obtain ⟨profile, -, rfl⟩ := Option.map_eq_some_iff.mp hstep
    exact hs
  | stop =>
    obtain rfl := Option.some.inj hstep
    exact hs
  | cancel =>
    obtain rfl := Option.some.inj hstep
    exact hs
  | take =>
    unfold step at hstep
    simp only at hstep
    split at hstep
    · obtain rfl := Option.some.inj hstep
      exact hs
    · cases hstep
  | tick =>
    obtain ⟨-, hstep⟩ := Option.ite_none_right_eq_some.mp hstep
    obtain rfl := Option.some.inj hstep
    unfold State.tick
    simp only
    split_ifs
    · exact hs
    · exact hs
    · exact hs
  | _ =>
    obtain ⟨-, hstep⟩ := Option.ite_none_right_eq_some.mp hstep
    obtain rfl := Option.some.inj hstep
    exact hs

/-- In a run without a panic every step is in turn. -/
theorem inTurn_of_not_panicked (h : Reaches (step cfg) s t) (hquiet : t.panicked = false) :
    ReachesUnder (step cfg) (fun s a => a.inTurn s) s t := by
  induction h with
  | refl => exact Relation.ReflTransGen.refl
  | tail _ hlast ih =>
    rename_i u v _
    obtain ⟨a, -, hstep⟩ := hlast
    have hbefore : u.panicked = false := by
      by_contra hno
      rw [panicked_step hstep (Bool.eq_true_of_not_eq_false hno)] at hquiet
      cases hquiet
    refine (ih hbefore).tail ?_ hstep
    cases a with
    | main skip =>
      intro _ hpanicked
      rw [hbefore] at hpanicked
      cases hpanicked
    | _ => trivial

/-- What a result of the pair a checkpoint names says of the iterations before it. -/
theorem State.Vouched.doneBefore {c : Checkpoint} {n : ℕ}
    (h : s.Vouched cfg c.endpoint c.profile n) (hreal : c.profile ≠ baseline ∧ c.profile ≠ "")
    {it : Iteration} (hi : it.i < cfg.requests it.p it.e) (hnot : cfg.NotYet c it.p it.e) :
    s.Done cfg it ∨
      cfg.pair it.p it.e = some (c.profile, c.endpoint) ∧ (n = it.i+1 → it ∈ s.completed) := by
  obtain ⟨p, e, i, hn, hpair, hdone, hbefore⟩ := (h.resolve_left hreal.1).resolve_left hreal.2
  have hlater : ¬ Before p e it.p it.e := fun hlt => hnot p e hlt hpair
  by_cases hlt : Before it.p it.e p e
  · exact Or.inl (hbefore it.p it.e hlt it.i hi)
  · have heq : it.p = p ∧ it.e = e := by
      unfold Before at hlater hlt
      omega
    refine Or.inr ⟨?_, fun hit => ?_⟩
    · rw [heq.1, heq.2]
      exact hpair
    · obtain rfl : it = ⟨p, e, i⟩ := by
        obtain ⟨p', e', i'⟩ := it
        simp only at heq hit
        rw [heq.1, heq.2, show i' = i by omega]
      exact hdone

/-- The watermark that a checkpoint takes its iteration from is of the checkpoint's pair,
where the config has such a pair. -/
def State.InPlace (cfg : Config) (s : State) : Prop :=
  ∀ profile ∈ s.aggregator.loaded, cfg.hasPair (s.checkpointEvent profile) = true →
    s.aggregator.iters.profile = profile ∧ s.aggregator.iters.endpoint = s.currentEndpoint

theorem done_of_skips (hstats : s.StatsSound cfg) (hplace : s.InPlace cfg) {profile : String}
    (hloaded : profile ∈ s.aggregator.loaded) {it : Iteration}
    (hi : it.i < cfg.requests it.p it.e) (hskip : cfg.Skips (s.checkpointEvent profile) it) :
    s.Done cfg it := by
  obtain ⟨hpair, hnot, hfirst⟩ := hskip
  obtain ⟨hprofile, hendpoint⟩ := hplace profile hloaded hpair
  have hreal := hstats.loaded profile hloaded
  cases hc : s.aggregator.iters.completed with
  | none => exact absurd (hprofile.symm.trans (hstats.watermark.fresh hc)) hreal.2
  | some l =>
    obtain ⟨hne, hvouched⟩ := hstats.watermark.vouched l hc
    rw [hprofile, hendpoint] at hvouched
    obtain ⟨n, hn⟩ := List.exists_mem_of_ne_nil l hne
    have hsome : s.Vouched cfg (s.checkpointEvent profile).endpoint
        (s.checkpointEvent profile).profile n := hvouched n hn
    rcases hsome.doneBefore hreal hi hnot with hdone | ⟨hsame, -⟩
    · exact hdone
    · have hlt : it.i < s.aggregator.latestIteration := hfirst hsame
      have hcovers := hstats.watermark.covers
      rw [hc] at hcovers
      have hmem : it.i+1 ∈ l := by
        apply hcovers (it.i+1) (by omega)
        have := hstats.watermark.latest
        omega
      have hthis : s.Vouched cfg (s.checkpointEvent profile).endpoint
          (s.checkpointEvent profile).profile (it.i+1) := hvouched _ hmem
      rcases hthis.doneBefore hreal hi hnot with hdone | ⟨-, hdone⟩
      · exact hdone
      · exact Or.inl (hdone rfl)

/-- The config of a scan that resumes from a checkpoint. -/
def Config.resumedFrom (cfg : Config) (c : Checkpoint) : Config :=
  { cfg with checkpoint := some c }

/-- What a resumed run that comes to its end has not done itself was skipped. -/
theorem resumed_done {c : Checkpoint} {profile endpoint : String} {requests : ℕ}
    (h : Reaches (step (cfg.resumedFrom c))
      (State.start (cfg.resumedFrom c) profile endpoint requests) t)
    (hend : t.main = .phases) (hgoes : ¬ t.Broken) {it : Iteration}
    (hi : it.i < cfg.requests it.p it.e) :
    it ∈ t.completed ∨ it ∈ t.dropped ∨ cfg.Skips c it := by
  have hquiet : t.panicked = false := by
    by_contra hno
    exact hgoes (Or.inr (Or.inr (Bool.eq_true_of_not_eq_false hno)))
  obtain ⟨hloop, -⟩ := reaches_sound (inTurn_of_not_panicked h hquiet)
  have hmain := hloop.main
  rw [hend] at hmain
  rcases (hmain.resolve_left hgoes) it.p it.e it.i hi with hdone | hdone | ⟨c', hc', hskips⟩
  · exact Or.inl hdone
  · exact Or.inr (Or.inl hdone)
  · obtain ⟨hsome, -⟩ := Option.mem_filter_iff.mp hc'
    obtain rfl := Option.some.inj hsome
    exact Or.inr (Or.inr hskips)

/-- Whatever a checkpoint whose watermark is of its own pair lets a resumed run skip was
done when it was broadcast, so the resumed run, once it comes to its end, has executed every
iteration that was not. -/
theorem checkpoint_skips_nothing {profile endpoint : String} {requests : ℕ}
    (h : ReachesUnder (step cfg) (fun s a => a.inTurn s)
      (State.start cfg profile endpoint requests) s)
    (hplace : s.InPlace cfg) (hstep : step cfg s .broadcast = some t) :
    ∃ c, t.checkpoints = s.checkpoints ++ [c] ∧
      (∀ it, it.i < cfg.requests it.p it.e → cfg.Skips c it → s.Done cfg it) ∧
      ∀ profile' endpoint' requests' u,
        Reaches (step (cfg.resumedFrom c))
          (State.start (cfg.resumedFrom c) profile' endpoint' requests') u →
        u.main = .phases → ¬ u.Broken → ∀ it, it.i < cfg.requests it.p it.e →
        s.Done cfg it ∨ it ∈ u.completed ∨ it ∈ u.dropped := by
  obtain ⟨-, hstats⟩ := reaches_sound h
  obtain ⟨pr, hloaded, rfl⟩ := Option.map_eq_some_iff.mp hstep
  have hdone (it : Iteration) (hi : it.i < cfg.requests it.p it.e)
      (hskip : cfg.Skips (s.checkpointEvent pr) it) : s.Done cfg it :=
    done_of_skips hstats hplace hloaded hi hskip
  refine ⟨s.checkpointEvent pr, rfl, hdone, ?_⟩
  intro profile' endpoint' requests' u hu hend hgoes it hi
  rcases resumed_done hu hend hgoes hi with hcompleted | hdropped | hskip
  · exact Or.inr (Or.inl hcompleted)
  · exact Or.inr (Or.inr hdropped)
  · exact Or.inl (hdone it hi hskip)

/-- Two endpoints, of a hundred iterations and of one. -/
def twoEndpoints : Config where
  profiles := ["RANDOM"]
  endpoints := [⟨"POST", "/a", fun _ => 100⟩, ⟨"GET", "/b", fun _ => 1⟩]
  checkpoint := none

/-- The baselines, and all iterations of the first endpoint, each one taken in at once. -/
def firstEndpoint : List Label :=
  [.main false, .main false, .main false, .baselineStarts 0, .baselineEnds 0 .result,
    .baselineStarts 0, .baselineEnds 0 .result, .take, .take, .main false, .main false,
    .main false] ++
  (List.replicate 100 [.main false, .finish 0 .result, .take]).flatten

/-- The second endpoint has been begun, and none of its iterations, when the ticker fires. -/
def tickAtSwitch : List Label := firstEndpoint ++ [.main false, .main false, .main false, .tick]

def freshStart : State := State.start twoEndpoints "" "" 0

instance (s : State) : DecidablePred (Label.inTurn s) := fun a => by
  unfold Label.inTurn
  cases a <;> infer_instance

/-- The first endpoint is skipped, and the second one fuzzed. -/
def resumeAfterFirst : List Label :=
  List.replicate 105 (.main false) ++ [.main false, .finish 0 .result] ++
    List.replicate 4 (.main false)

/-- A checkpoint at the end of the first endpoint, and the run that resumes from it. -/
theorem checkpoint_skips_nothing_first : ∃ s t c u,
    Reaches (step twoEndpoints) freshStart s ∧ step twoEndpoints s .broadcast = some t ∧
      t.checkpoints = s.checkpoints ++ [c] ∧
      Reaches (step (twoEndpoints.resumedFrom c)) (State.start (twoEndpoints.resumedFrom c) "" "" 0)
        u ∧
      ∀ it, it.i < twoEndpoints.requests it.p it.e →
        s.Done twoEndpoints it ∨ it ∈ u.completed ∨ it ∈ u.dropped := by
  have htrace := reachesUnder_of_test (step twoEndpoints) (fun s a => a.inTurn s) freshStart
    (firstEndpoint ++ [.tick])
    (fun s => decide (s.aggregator.loaded = some "RANDOM") &&
      decide (s.aggregator.iters.profile = "RANDOM") &&
      decide (s.aggregator.iters.endpoint = s.currentEndpoint) &&
      decide (s.checkpointEvent "RANDOM" = ⟨"RANDOM", "POST /a", 100⟩)) (by decide +kernel)
  obtain ⟨s, hreach, htest⟩ := htrace
  simp only [Bool.and_eq_true, decide_eq_true_eq] at htest
  obtain ⟨⟨⟨hloaded, hprofile⟩, hendpoint⟩, hevent⟩ := htest
  have hplace : s.InPlace twoEndpoints := by
    intro profile hp _
    obtain rfl := Option.some.inj (hloaded.symm.trans hp)
    exact ⟨hprofile, hendpoint⟩
  have hstep := congrArg (Option.map fun profile => { s with
      checkpoints := s.checkpoints ++ [s.checkpointEvent profile]
      aggregator := { s.aggregator with
        lastCheckpointRequests := s.aggregator.totalRequests, loaded := none } }) hloaded
  obtain ⟨c, hc, -, hresumed⟩ := checkpoint_skips_nothing hreach hplace hstep
  obtain rfl : c = ⟨"RANDOM", "POST /a", 100⟩ := by
    rw [← hevent]
    exact (List.singleton_inj.mp (List.append_cancel_left hc)).symm
  have hsecond := reachesUnder_of_test
    (step (twoEndpoints.resumedFrom ⟨"RANDOM", "POST /a", 100⟩)) (fun _ _ => True)
    (State.start (twoEndpoints.resumedFrom ⟨"RANDOM", "POST /a", 100⟩) "" "" 0) resumeAfterFirst
    (fun u => decide (u.main = .phases) && !u.stopped && !u.cancelled && !u.panicked)
    (by decide)
  obtain ⟨u, hu, htest⟩ := hsecond
  simp only [Bool.and_eq_true, decide_eq_true_eq, Bool.not_eq_true'] at htest
  have hgoes : ¬ u.Broken := by
    simp [State.Broken, htest]
  exact ⟨s, _, _, u, hreach.reaches, hstep, hc, hu, hresumed "" "" 0 u hu htest.1.1.1 hgoes⟩

/-- A checkpoint with the first endpoint's iterations and the second endpoint's key lets a
resumed run skip an iteration that was not done. -/
theorem checkpoint_skips_work : ∃ s t c it,
    Reaches (step twoEndpoints) freshStart s ∧ step twoEndpoints s .broadcast = some t ∧
      t.checkpoints = s.checkpoints ++ [c] ∧ it.i < twoEndpoints.requests it.p it.e ∧
      twoEndpoints.Skips c it ∧ ¬ s.Done twoEndpoints it := by
  have htrace := reachesUnder_of_test (step twoEndpoints) (fun _ _ => True) freshStart
    tickAtSwitch
    (fun s => decide (s.aggregator.loaded = some "RANDOM") &&
      decide (s.checkpointEvent "RANDOM" = ⟨"RANDOM", "GET /b", 100⟩) &&
      decide (⟨0, 1, 0⟩ ∉ s.completed) && decide (⟨0, 1, 0⟩ ∉ s.dropped)) (by decide +kernel)
  obtain ⟨s, hreach, htest⟩ := htrace
  simp only [Bool.and_eq_true, decide_eq_true_eq] at htest
  obtain ⟨⟨⟨hloaded, hevent⟩, hcompleted⟩, hdropped⟩ := htest
  refine ⟨s, _, ⟨"RANDOM", "GET /b", 100⟩, ⟨0, 1, 0⟩, hreach,
    congrArg (Option.map _) hloaded, ?_, by decide, ⟨by decide, ?_, fun _ => by decide⟩, ?_⟩
  · simp only [hevent]
  · intro p e hbefore
    change p < 0 ∨ p = 0 ∧ e < 1 at hbefore
    obtain ⟨rfl, rfl⟩ : p = 0 ∧ e = 0 := by omega
    decide
  · rintro (hmem | hmem | ⟨c, hc, -⟩)
    · exact hcompleted hmem
    · exact hdropped hmem
    · cases hc

end Swazz.Fuzz
