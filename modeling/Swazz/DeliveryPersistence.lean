import Mathlib.Data.List.Perm.Basic
import Swazz.DeliveryTracker
import Swazz.ListIndex
import Swazz.StepSystem

/-! Acknowledgements and the durable mark against the persistence of the events they
cover. Every link waits for the links of its run before it. -/
namespace Swazz.Delivery

/-- Every link of the run below `i` has settled. -/
def SettledBelow (links : List Link) (run : String) (i : ℕ) : Prop :=
  ∀ (j : ℕ) (m : Link), j < i → links[j]? = some m → m.run = run → m.phase = .settled

/-- The chain a run's handlers would wait for reaches back to all its events. -/
structure ChainInv (links : List Link) (persisting : String → Option ℕ)
    (marks : String → Option (ℕ × DeliveredMark)) : Prop where
  idle : ∀ run, persisting run = none → SettledBelow links run links.length
  last : ∀ run k, persisting run = some k → (∃ l, links[k]? = some l ∧ l.run = run) ∧
    ∀ (j : ℕ) (l : Link), links[j]? = some l → l.run = run → j ≤ k
  mark : ∀ run, (marks run).map Prod.fst = persisting run
  own : ∀ (i : ℕ) (l : Link), links[i]? = some l → l.mark = some (i, ⟨l.exec, l.seq⟩)
  first : ∀ (i : ℕ) (l : Link), links[i]? = some l → l.previous = none →
    SettledBelow links l.run i
  previous : ∀ (i p : ℕ) (l : Link), links[i]? = some l → l.previous = some p →
    (p < i ∧ ∃ m, links[p]? = some m ∧ m.run = l.run) ∧
    ∀ (j : ℕ) (m : Link), j < i → links[j]? = some m → m.run = l.run → j ≤ p
  started : ∀ (i : ℕ) (l : Link), links[i]? = some l → l.phase ≠ .pending →
    l.done = true ∧ SettledBelow links l.run i

theorem chainInv_nil : ChainInv [] (fun _ => none) (fun _ => none) := by
  constructor <;> simp [SettledBelow]

/-- A link whose turn has come: every link of its run before it has settled. -/
theorem settledBelow_of_previous {links : List Link} {persisting : String → Option ℕ}
    {marks : String → Option (ℕ × DeliveredMark)} (hc : ChainInv links persisting marks)
    {i : ℕ} {l : Link} (hl : links[i]? = some l)
    (hp : ∀ p, l.previous = some p → ∃ m, links[p]? = some m ∧ m.phase = .settled) :
    SettledBelow links l.run i := by
  cases hprev : l.previous with
  | none => exact hc.first i l hl hprev
  | some p =>
    obtain ⟨⟨_, m, hm, hmrun⟩, hlast⟩ := hc.previous i p l hl hprev
    obtain ⟨m', hm', hphase⟩ := hp p hprev
    obtain rfl : m = m' := by simpa [hm] using hm'
    have hbelow := (hc.started p m hm (by simp [hphase])).2
    intro j n hji hn hnrun
    rcases Nat.lt_or_eq_of_le (hlast j n hji hn hnrun) with hjp | rfl
    · exact hbelow j n hjp hn (hnrun.trans hmrun.symm)
    · obtain rfl : m = n := by simpa [hm] using hn
      exact hphase

/-- What a change to one link keeps: the link's own data and what already settled. -/
structure Advances (links : List Link) (i : ℕ) (f : Link → Link) : Prop where
  run : ∀ l, (f l).run = l.run
  event : ∀ l, (f l).exec = l.exec ∧ (f l).seq = l.seq
  chain : ∀ l, (f l).previous = l.previous ∧ (f l).mark = l.mark
  done : ∀ l, l.done = true → (f l).done = true
  settled : ∀ l, links[i]? = some l → l.phase = .settled → (f l).phase = .settled
  started : ∀ l, links[i]? = some l → (f l).phase ≠ .pending →
    (f l).done = true ∧ SettledBelow links l.run i

theorem settledBelow_modify {links : List Link} {i : ℕ} {f : Link → Link}
    (hf : Advances links i f) {run : String} {k : ℕ} (h : SettledBelow links run k) :
    SettledBelow (links.modify i f) run k := by
  intro j m hjk hm hrun
  obtain ⟨b, hb, ⟨rfl, _⟩ | ⟨rfl, rfl⟩⟩ := ListIndex.of_modify hm
  · exact h j m hjk hb hrun
  · exact hf.settled b hb (h j b hjk hb ((hf.run b).symm.trans hrun))

theorem chainInv_modify {links : List Link} {persisting : String → Option ℕ}
    {marks : String → Option (ℕ × DeliveredMark)} (hc : ChainInv links persisting marks)
    {i : ℕ} {f : Link → Link} (hf : Advances links i f) :
    ChainInv (links.modify i f) persisting marks := by
  have hget (k : ℕ) (l : Link) (h : links[k]? = some l) :
      ∃ l', (links.modify i f)[k]? = some l' ∧ l'.run = l.run := by
    by_cases hik : i = k
    · subst hik
      exact ⟨f l, ListIndex.modify_self h, hf.run l⟩
    · exact ⟨l, by rw [ListIndex.modify_ne fun hki => hik hki.symm, h], rfl⟩
  have horigin (k : ℕ) (l : Link) (h : (links.modify i f)[k]? = some l) :
      ∃ b, links[k]? = some b ∧ l.run = b.run ∧ l.exec = b.exec ∧ l.seq = b.seq ∧
        l.previous = b.previous ∧ l.mark = b.mark := by
    obtain ⟨b, hb, ⟨rfl, _⟩ | ⟨rfl, rfl⟩⟩ := ListIndex.of_modify h
    · exact ⟨l, hb, rfl, rfl, rfl, rfl, rfl⟩
    · exact ⟨b, hb, hf.run b, (hf.event b).1, (hf.event b).2, (hf.chain b).1, (hf.chain b).2⟩
  constructor
  · intro run hrun
    rw [List.length_modify]
    exact settledBelow_modify hf (hc.idle run hrun)
  · intro run k hk
    obtain ⟨⟨l, hl, hrun⟩, hle⟩ := hc.last run k hk
    obtain ⟨l', hl', hrun'⟩ := hget k l hl
    refine ⟨⟨l', hl', hrun'.trans hrun⟩, ?_⟩
    intro j m hm hmrun
    obtain ⟨b, hb, hbrun, -⟩ := horigin j m hm
    exact hle j b hb (hbrun.symm.trans hmrun)
  · exact hc.mark
  · intro k l hl
    obtain ⟨b, hb, -, he, hs, -, hm⟩ := horigin k l hl
    rw [hm, he, hs]
    exact hc.own k b hb
  · intro k l hl hnone
    obtain ⟨b, hb, hrun, -, -, hp, -⟩ := horigin k l hl
    rw [hrun]
    exact settledBelow_modify hf (hc.first k b hb (hp.symm.trans hnone))
  · intro k p l hl hsome
    obtain ⟨b, hb, hrun, -, -, hp, -⟩ := horigin k l hl
    obtain ⟨⟨hpk, m, hm, hmrun⟩, hle⟩ := hc.previous k p b hb (hp.symm.trans hsome)
    obtain ⟨m', hm', hmrun'⟩ := hget p m hm
    refine ⟨⟨hpk, m', hm', hmrun'.trans (hmrun.trans hrun.symm)⟩, ?_⟩
    intro j n hjk hn hnrun
    obtain ⟨b', hb', hbrun', -⟩ := horigin j n hn
    exact hle j b' hjk hb' (hbrun'.symm.trans (hnrun.trans hrun))
  · intro k l hl hphase
    obtain ⟨b, hb, ⟨rfl, _⟩ | ⟨rfl, rfl⟩⟩ := ListIndex.of_modify hl
    · obtain ⟨hd, hs⟩ := hc.started k l hb hphase
      exact ⟨hd, settledBelow_modify hf hs⟩
    · obtain ⟨hd, hs⟩ := hf.started b hb hphase
      exact ⟨hd, by rw [hf.run b]; exact settledBelow_modify hf hs⟩

/-- A new event extends its run's chain. -/
theorem chainInv_append {links : List Link} {persisting : String → Option ℕ}
    {marks : String → Option (ℕ × DeliveredMark)} (hc : ChainInv links persisting marks)
    (run exec : String) (seq : ℕ) :
    ChainInv
      (links ++ [{
        run := run, exec := exec, seq := seq, done := false, previous := persisting run,
        mark := some (links.length, ⟨exec, seq⟩), phase := .pending }])
      (Function.update persisting run (some links.length))
      (Function.update marks run (some (links.length, ⟨exec, seq⟩))) := by
  have hbelow (a : Link) (r : String) (k : ℕ) (hk : k ≤ links.length)
      (h : SettledBelow links r k) : SettledBelow (links ++ [a]) r k := by
    intro j m hjk hm hrun
    rcases ListIndex.of_concat hm with ⟨hm, _⟩ | ⟨_, rfl⟩
    · exact h j m hjk hm hrun
    · omega
  constructor
  · intro r hr j m hj hm hmrun
    have hne : r ≠ run := by rintro rfl; simp at hr
    rw [Function.update_of_ne hne] at hr
    rcases ListIndex.of_concat hm with ⟨hm, hlt⟩ | ⟨rfl, _⟩
    · exact hc.idle r hr j m hlt hm hmrun
    · exact absurd hmrun.symm hne
  · intro r k hk
    by_cases hr : r = run
    · subst hr
      obtain rfl : links.length = k := by simpa using hk
      refine ⟨⟨_, ListIndex.concat_self, rfl⟩, ?_⟩
      intro j m hm _
      rcases ListIndex.of_concat hm with ⟨_, hlt⟩ | ⟨_, rfl⟩ <;> omega
    · rw [Function.update_of_ne hr] at hk
      obtain ⟨⟨l, hl, hlrun⟩, hle⟩ := hc.last r k hk
      refine ⟨⟨l, ListIndex.concat_of hl, hlrun⟩, ?_⟩
      intro j m hm hmrun
      rcases ListIndex.of_concat hm with ⟨hm, _⟩ | ⟨rfl, _⟩
      · exact hle j m hm hmrun
      · exact absurd hmrun.symm hr
  · intro r
    by_cases hr : r = run
    · subst hr; simp
    · simpa [Function.update_of_ne hr] using hc.mark r
  · intro k l hl
    rcases ListIndex.of_concat hl with ⟨hl, _⟩ | ⟨rfl, rfl⟩
    · exact hc.own k l hl
    · rfl
  · intro k l hl hnone
    rcases ListIndex.of_concat hl with ⟨hl, hlt⟩ | ⟨rfl, rfl⟩
    · exact hbelow _ _ k hlt.le (hc.first k l hl hnone)
    · exact hbelow _ _ _ le_rfl (hc.idle run hnone)
  · intro k p l hl hsome
    rcases ListIndex.of_concat hl with ⟨hl, hlt⟩ | ⟨rfl, rfl⟩
    · obtain ⟨⟨hpk, m, hm, hmrun⟩, hle⟩ := hc.previous k p l hl hsome
      refine ⟨⟨hpk, m, ListIndex.concat_of hm, hmrun⟩, ?_⟩
      intro j n hjk hn hnrun
      rcases ListIndex.of_concat hn with ⟨hn, _⟩ | ⟨_, rfl⟩
      · exact hle j n hjk hn hnrun
      · omega
    · obtain ⟨⟨m, hm, hmrun⟩, hle⟩ := hc.last run p hsome
      refine ⟨⟨(List.getElem?_eq_some_iff.mp hm).1, m, ListIndex.concat_of hm, hmrun⟩, ?_⟩
      intro j n hjk hn hnrun
      rcases ListIndex.of_concat hn with ⟨hn, _⟩ | ⟨_, rfl⟩
      · exact hle j n hn hnrun
      · omega
  · intro k l hl hphase
    rcases ListIndex.of_concat hl with ⟨hl, hlt⟩ | ⟨rfl, rfl⟩
    · obtain ⟨hd, hs⟩ := hc.started k l hl hphase
      exact ⟨hd, hbelow _ _ k hlt.le hs⟩
    · exact absurd rfl hphase

/-- An acknowledgement at its await covers only events that have settled or that its
chain waits for. -/
def WaitCovers (links : List Link) : Task → Prop
  | .acknowledging _ run exec seq chain =>
    (∀ k, chain = some k → ∃ l, links[k]? = some l ∧ l.run = run) ∧
    ∀ (j : ℕ) (m : Link), links[j]? = some m → m.run = run → m.exec = exec → m.seq ≤ seq →
      m.phase = .settled ∨ ∃ k, chain = some k ∧ j ≤ k
  | _ => True

theorem waitCovers_persisting {links : List Link} {persisting : String → Option ℕ}
    {marks : String → Option (ℕ × DeliveredMark)} (hc : ChainInv links persisting marks)
    (ws : ℕ) (run exec : String) (seq : ℕ) :
    WaitCovers links (.acknowledging ws run exec seq (persisting run)) := by
  refine ⟨fun k hk => (hc.last run k hk).1, ?_⟩
  intro j m hm hrun _ _
  cases hp : persisting run with
  | none => exact Or.inl (hc.idle run hp j m (ListIndex.lt_length hm) hm hrun)
  | some k => exact Or.inr ⟨k, rfl, (hc.last run k hp).2 j m hm hrun⟩

theorem waitCovers_modify {links : List Link} {i : ℕ} {f : Link → Link}
    (hf : Advances links i f) {t : Task} (h : WaitCovers links t) :
    WaitCovers (links.modify i f) t := by
  cases t with
  | acknowledging ws run exec seq chain =>
    obtain ⟨hchain, hcovers⟩ := h
    refine ⟨?_, ?_⟩
    · intro k hk
      obtain ⟨l, hl, hrun⟩ := hchain k hk
      by_cases hki : k = i
      · subst hki
        exact ⟨f l, ListIndex.modify_self hl, (hf.run l).trans hrun⟩
      · exact ⟨l, by rw [ListIndex.modify_ne hki, hl], hrun⟩
    · intro j m hm hrun hexec hseq
      obtain ⟨b, hb, hor⟩ := ListIndex.of_modify hm
      rcases hor with ⟨hmb, _⟩ | ⟨hmb, hji⟩
      · subst hmb
        exact hcovers j m hb hrun hexec hseq
      · subst hmb hji
        rw [hf.run] at hrun
        rw [(hf.event b).1] at hexec
        rw [(hf.event b).2] at hseq
        exact (hcovers j b hb hrun hexec hseq).imp_left (hf.settled b hb)
  | _ => trivial

theorem waitCovers_append {links : List Link} {a : Link} {t : Task} (h : WaitCovers links t)
    (ha : ∀ ws n chain, t = .acknowledging ws a.run a.exec n chain → n < a.seq) :
    WaitCovers (links ++ [a]) t := by
  cases t with
  | acknowledging ws run exec seq chain =>
    obtain ⟨hchain, hcovers⟩ := h
    refine ⟨?_, ?_⟩
    · intro k hk
      obtain ⟨l, hl, hrun⟩ := hchain k hk
      exact ⟨l, ListIndex.concat_of hl, hrun⟩
    · intro j m hm hrun hexec hseq
      rcases ListIndex.of_concat hm with ⟨hm, _⟩ | ⟨hma, _⟩
      · exact hcovers j m hm hrun hexec hseq
      · subst hma hrun hexec
        have hlt := ha ws seq chain rfl
        omega
  | _ => trivial

namespace Coordinator

/-- What every reachable state of the tracker satisfies. At most one handler reads the
storage at a time, and none classifies an event of a run with a chain from what it read. -/
structure Inv (c : Coordinator) : Prop where
  chain : ChainInv c.links c.persisting c.marks
  waits : ∀ t ∈ c.tasks, WaitCovers c.links t
  oneRead : c.tasks.countP Task.reads ≤ 1
  accepting : ∀ ws run exec seq terminal last,
    Task.accepting ws run exec seq terminal last ∈ c.tasks → c.persisting run = none

theorem inv_init (stored : String → Option DeliveredMark) : Inv (init stored) where
  chain := chainInv_nil
  waits := by simp [init]
  oneRead := by simp [init]
  accepting := by simp [init]

theorem inv_acknowledge {c : Coordinator} (hc : Inv c) (ws : ℕ) (run exec : String)
    (seq : ℕ) : Inv (c.acknowledge ws run exec seq) where
  chain := hc.chain
  waits := by
    intro t ht
    rcases List.mem_append.mp ht with ht | ht
    · exact hc.waits t ht
    · rw [List.mem_singleton.mp ht]
      exact waitCovers_persisting hc.chain ws run exec seq
  oneRead := by
    have h := hc.oneRead
    simpa [acknowledge, List.countP_append, Task.reads] using h
  accepting := by
    intro w r e n t l h
    have hmem : Task.accepting w r e n t l ∈ c.tasks := by
      simpa [acknowledge] using h
    exact hc.accepting w r e n t l hmem

/-- A handler that starts a storage read: none is in progress. -/
theorem inv_read {c : Coordinator} (hc : Inv c) (hnone : c.tasks.countP Task.reads = 0)
    (t : Task) (ht : t.reads = true)
    (hacc : ∀ ws run exec seq terminal last, t = .accepting ws run exec seq terminal last →
      c.persisting run = none) : Inv { c with tasks := c.tasks ++ [t] } where
  chain := hc.chain
  waits := by
    intro u hu
    rcases List.mem_append.mp hu with hu | hu
    · exact hc.waits u hu
    · rw [List.mem_singleton.mp hu]
      cases t with
      | acknowledging ws run exec seq chain => simp [Task.reads] at ht
      | _ => trivial
  oneRead := by
    simp only [List.countP_append, hnone, List.countP_singleton, ht]
    simp
  accepting := by
    intro w r e n b l h
    rcases List.mem_append.mp h with h | h
    · exact hc.accepting w r e n b l h
    · exact hacc w r e n b l (List.mem_singleton.mp h).symm

theorem persisting_none {c : Coordinator} (hc : Inv c) {run : String}
    (h : c.marks run = none) : c.persisting run = none := by
  rw [← hc.chain.mark run, h]
  rfl

theorem inv_duplicate {c : Coordinator} (hc : Inv c) (hnone : c.tasks.countP Task.reads = 0)
    (ws : ℕ) (run : String) : Inv (c.duplicate ws run) := by
  unfold duplicate
  split_ifs with hseen
  · exact hc
  · have hc' : Inv { c with duplicateAcked := (ws, run) :: c.duplicateAcked } :=
      ⟨hc.chain, hc.waits, hc.oneRead, hc.accepting⟩
    dsimp only
    split
    · exact inv_acknowledge hc' ws run _ _
    · exact inv_read hc' hnone _ rfl (by simp)

theorem inv_answer {c : Coordinator} (hc : Inv c) (ws : ℕ) (run exec : String) (seq : ℕ)
    (last : Option DeliveredMark) : Inv (c.answer ws run exec seq last) := by
  unfold answer
  split
  · split_ifs
    · exact inv_acknowledge hc ws run exec _
    · exact hc
  · exact hc

theorem inv_processed {c : Coordinator} (hc : Inv c) (ws : ℕ) (run exec : String) (seq : ℕ)
    (terminal : Bool) : Inv (c.processed ws run exec seq terminal) := by
  unfold processed
  dsimp only
  split_ifs
  · exact ⟨hc.chain, hc.waits, hc.oneRead, hc.accepting⟩
  · exact inv_acknowledge hc ws run exec seq

/-- A new event is tracked, if no acknowledgement that would cover it is waiting. -/
theorem inv_takeIn {c : Coordinator} (hc : Inv c) (hnone : c.tasks.countP Task.reads = 0)
    (ws : ℕ) (run exec : String) (seq : ℕ) (terminal : Bool)
    (hwait : ∀ w n chain, Task.acknowledging w run exec n chain ∈ c.tasks → n < seq) :
    Inv (c.takeIn ws run exec seq terminal) := by
  apply inv_processed
  refine ⟨?_, ?_, hc.oneRead, ?_⟩
  · have h := chainInv_append hc.chain run exec seq
    simpa [persisted, setMark] using h
  · intro t ht
    apply waitCovers_append (hc.waits t ht)
    intro w n chain heq
    exact hwait w n chain (heq ▸ ht)
  · intro w r e n b l h
    -- No event is being classified while another one is.
    have hpos : 0 < c.tasks.countP Task.reads := List.countP_pos_iff.mpr ⟨_, h, rfl⟩
    omega

theorem inv_accept {c : Coordinator} (hc : Inv c) (hnone : c.tasks.countP Task.reads = 0)
    (ws : ℕ) (run exec : String) (seq : ℕ) (terminal : Bool) (last : Option DeliveredMark)
    (hwait : verdict last exec seq = .new →
      ∀ w n chain, Task.acknowledging w run exec n chain ∈ c.tasks → n < seq) :
    Inv (c.accept ws run exec seq terminal last) := by
  unfold accept
  split
  · exact inv_takeIn hc hnone ws run exec seq terminal (hwait ‹_›)
  · exact inv_duplicate hc hnone ws run

/-- The handler whose storage read returned is taken off. -/
theorem inv_eraseIdx {c : Coordinator} (hc : Inv c) (i : ℕ) :
    Inv { c with tasks := c.tasks.eraseIdx i } where
  chain := hc.chain
  waits := fun t ht => hc.waits t (List.mem_of_mem_eraseIdx ht)
  oneRead := (List.Sublist.countP_le (List.eraseIdx_sublist c.tasks i)).trans hc.oneRead
  accepting := fun ws run exec seq terminal last h =>
    hc.accepting ws run exec seq terminal last (List.mem_of_mem_eraseIdx h)

theorem reads_eraseIdx {c : Coordinator} (hc : Inv c) {i : ℕ} {t : Task}
    (ht : c.tasks[i]? = some t) (hreads : t.reads = true) :
    (c.tasks.eraseIdx i).countP Task.reads = 0 := by
  obtain ⟨hlt, heq⟩ := List.getElem?_eq_some_iff.mp ht
  have hperm := (List.getElem_cons_eraseIdx_perm (l := c.tasks) hlt).countP_eq Task.reads
  rw [heq, List.countP_cons, if_pos hreads] at hperm
  have hone := hc.oneRead
  omega

theorem reads_gateOpen {c : Coordinator} (h : c.gateOpen = true) :
    c.tasks.countP Task.reads = 0 := by
  simp only [gateOpen, Bool.and_eq_true, List.all_eq_true] at h
  rw [List.countP_eq_zero]
  intro t ht
  have hnot := h.1 t ht
  simpa using hnot

/-- No acknowledgement is left waiting for a run whose chain has settled. -/
theorem no_wait_of_drained {c : Coordinator} (hc : Inv c) (hd : c.drained = true)
    {run : String} (hrun : c.persisting run = none) (ws : ℕ) (exec : String) (n : ℕ)
    (chain : Option ℕ) : Task.acknowledging ws run exec n chain ∉ c.tasks := by
  intro hmem
  have hnot : c.chainSettled chain = false := by
    simp only [drained, Bool.and_eq_true, List.all_eq_true] at hd
    have h := hd.2 _ hmem
    simpa [taskReady] using h
  cases chain with
  | none => simp [chainSettled] at hnot
  | some k =>
    obtain ⟨l, hl, hlrun⟩ := (hc.waits _ hmem).1 k rfl
    have hset := hc.chain.idle run hrun k l (ListIndex.lt_length hl) hl hlrun
    simp [chainSettled, hl, hset] at hnot

theorem settledBelow_of_linkReady {c : Coordinator} (hc : Inv c) {i : ℕ} {l : Link}
    (hl : c.links[i]? = some l) (hready : c.linkReady l = true) :
    l.done = true ∧ SettledBelow c.links l.run i := by
  simp only [linkReady, Bool.and_eq_true, decide_eq_true_eq] at hready
  obtain ⟨⟨-, hdone⟩, hprev⟩ := hready
  refine ⟨hdone, settledBelow_of_previous hc.chain hl ?_⟩
  intro p hp
  rw [hp] at hprev
  simpa [chainSettled, Option.any_eq_true] using hprev

/-- A link whose turn has come may change its phase. -/
theorem advances_phase {c : Coordinator} {i : ℕ} {l : Link}
    (hl : c.links[i]? = some l) (hdone : l.done = true) (hbelow : SettledBelow c.links l.run i)
    (phase : Phase) (hphase : l.phase = .settled → phase = .settled) :
    Advances c.links i fun l => { l with phase := phase } where
  run := fun _ => rfl
  event := fun _ => ⟨rfl, rfl⟩
  chain := fun _ => ⟨rfl, rfl⟩
  done := fun _ h => h
  settled := by
    intro m hm hset
    obtain rfl : l = m := by simpa [hl] using hm
    exact hphase hset
  started := by
    intro m hm _
    obtain rfl : l = m := by simpa [hl] using hm
    exact ⟨hdone, hbelow⟩

theorem inv_modify {c : Coordinator} (hc : Inv c) {i : ℕ} {f : Link → Link}
    (hf : Advances c.links i f) : Inv { c with links := c.links.modify i f } where
  chain := chainInv_modify hc.chain hf
  waits := fun t ht => waitCovers_modify hf (hc.waits t ht)
  oneRead := hc.oneRead
  accepting := hc.accepting

theorem inv_runLink {c : Coordinator} (hc : Inv c) {i : ℕ} {l : Link}
    (hl : c.links[i]? = some l) (hready : c.linkReady l = true) (ok : Bool) :
    Inv (c.runLink i l ok) := by
  obtain ⟨hdone, hbelow⟩ := settledBelow_of_linkReady hc hl hready
  have hpending : l.phase = .pending := by
    simp only [linkReady, Bool.and_eq_true, decide_eq_true_eq] at hready
    exact hready.1.1
  have hinv (phase : Phase) : Inv { c with
      links := c.links.modify i fun l => { l with phase := phase } } :=
    inv_modify hc (advances_phase hl hdone hbelow phase (by simp [hpending]))
  unfold runLink
  split
  · rename_i m hm
    by_cases hlast : c.persisting l.run = some i
    · rw [if_pos hlast]
      exact ⟨(hinv .writing).chain, (hinv .writing).waits, hc.oneRead, hc.accepting⟩
    · rw [if_neg hlast]
      exact hinv .settled
  · exact hinv .settled

/-- The chain's end: if no later event extended it, the run's maps are cleared. -/
theorem inv_endLink {c : Coordinator} (hc : Inv c) {i : ℕ} {l : Link}
    (hl : c.links[i]? = some l) (hwriting : l.phase = .writing) : Inv (c.endLink i l) := by
  obtain ⟨hdone, hbelow⟩ := hc.chain.started i l hl (by simp [hwriting])
  have hf : Advances c.links i fun l => { l with phase := .settled } :=
    advances_phase hl hdone hbelow .settled fun _ => rfl
  have hmod := inv_modify hc hf
  have hown := hc.chain.own i l hl
  have hmark : (c.marks l.run).map Prod.fst = l.mark.map Prod.fst ↔
      c.persisting l.run = some i := by
    rw [hc.chain.mark, hown]
    simp
  by_cases hlast : c.persisting l.run = some i
  · have hall : SettledBelow (c.links.modify i fun l => { l with phase := .settled }) l.run
        c.links.length := by
      intro j m _ hm hrun
      obtain ⟨b, hb, hor⟩ := ListIndex.of_modify hm
      rcases hor with ⟨hmb, hji⟩ | ⟨hmb, -⟩
      · subst hmb
        have hle := (hc.chain.last l.run i hlast).2 j m hb hrun
        exact hbelow j m (by omega) hb hrun
      · subst hmb
        rfl
    have hother {r : String} (hr : r ≠ l.run) :
        Function.update c.persisting l.run none r = c.persisting r :=
      Function.update_of_ne hr none c.persisting
    unfold endLink
    rw [if_pos hlast, if_pos (hmark.mpr hlast)]
    refine ⟨⟨?_, ?_, ?_, hmod.chain.own, hmod.chain.first, hmod.chain.previous,
      hmod.chain.started⟩, hmod.waits, hc.oneRead, ?_⟩
    · intro r hr
      by_cases hrl : r = l.run
      · subst hrl
        simpa using hall
      · dsimp only at hr
        rw [hother hrl] at hr
        exact hmod.chain.idle r hr
    · intro r k hk
      have hrl : r ≠ l.run := by
        intro heq
        subst heq
        simp at hk
      dsimp only at hk
      rw [hother hrl] at hk
      exact hmod.chain.last r k hk
    · intro r
      by_cases hrl : r = l.run
      · subst hrl
        simp
      · simpa [Function.update_of_ne hrl] using hc.chain.mark r
    · intro w r e n b m h
      have hnone := hc.accepting w r e n b m h
      by_cases hrl : r = l.run
      · subst hrl
        simp
      · simpa [Function.update_of_ne hrl] using hnone
  · unfold endLink
    rw [if_neg hlast, if_neg (mt hmark.mp hlast)]
    exact ⟨hmod.chain, hmod.waits, hc.oneRead, hc.accepting⟩

/-- Whether the handler is about to acknowledge the event. -/
def covers (run exec : String) (seq : ℕ) : Task → Bool
  | .acknowledging _ r e n _ => decide (r = run ∧ e = exec ∧ seq ≤ n)
  | _ => false

/-- An event above the run's mark, or of another execution than the mark's, comes while
no acknowledgement of its execution up to its seq or beyond is waiting. -/
def NoReturn (c : Coordinator) : Label → Prop
  | .event _ run exec seq _ =>
    ((c.marks run).any fun (_, m) => decide (m.exec = exec ∧ seq ≤ m.seq)) = true ∨
    ∀ t ∈ c.tasks, covers run exec seq t = false
  | _ => True

instance (c : Coordinator) (a : Label) : Decidable (NoReturn c a) :=
  match a with
  | .event _ _ _ _ _ => inferInstanceAs (Decidable (_ ∨ _))
  | .ackRequest _ _ _ _ | .read _ | .persist _ | .link _ _ | .put _ | .ack _ _ | .hibernate =>
    inferInstanceAs (Decidable True)

theorem inv_handleEvent {c : Coordinator} (hc : Inv c) (hgate : c.gateOpen = true) (ws : ℕ)
    (run exec : String) (seq : ℕ) (terminal : Bool)
    (hG : NoReturn c (.event ws run exec seq terminal)) :
    Inv (c.handleEvent ws run exec seq terminal) := by
  have hnone := reads_gateOpen hgate
  unfold handleEvent
  split_ifs
  · split
    · rename_i k m hmark
      apply inv_accept hc hnone
      intro hnew
      rcases hG with hmarked | hwait
      · obtain ⟨hexec, hseq⟩ : m.exec = exec ∧ seq ≤ m.seq := by simpa [hmark] using hmarked
        simp [verdict, hexec, hseq] at hnew
      · intro w n chain hmem
        have hnot := hwait _ hmem
        simpa [covers] using hnot
    · rename_i hmark
      apply inv_read hc hnone _ rfl
      intro w r e n b l heq
      obtain ⟨-, rfl, -⟩ := Task.accepting.inj heq
      exact persisting_none hc hmark
  · exact hc

theorem inv_requested {c : Coordinator} (hc : Inv c) (hgate : c.gateOpen = true) (ws : ℕ)
    (run exec : String) (seq : ℕ) : Inv (c.requested ws run exec seq) := by
  have hnone := reads_gateOpen hgate
  unfold requested
  split_ifs
  · split
    · exact inv_answer hc ws run exec seq _
    · exact inv_read hc hnone _ rfl (by simp)
  · exact hc

/-- A handler goes on with what its storage read returned. -/
theorem inv_resume {c : Coordinator} (hc : Inv c) (hd : c.drained = true) {i : ℕ} {t : Task}
    (ht : c.tasks[i]? = some t) (hreads : t.reads = true) :
    Inv ({ c with tasks := c.tasks.eraseIdx i }.resume t) := by
  have hc' := inv_eraseIdx hc i
  have hnone := reads_eraseIdx hc ht hreads
  have hmem : t ∈ c.tasks := List.mem_of_getElem? ht
  cases t with
  | accepting ws run exec seq terminal last =>
    apply inv_accept hc' hnone
    intro _ w n chain hw
    have hrun := hc.accepting ws run exec seq terminal last hmem
    exact absurd (List.mem_of_mem_eraseIdx hw) (no_wait_of_drained hc hd hrun w exec n chain)
  | requesting ws run exec seq last => exact inv_answer hc' ws run exec seq last
  | duplicating ws run last =>
    cases last with
    | none => exact hc'
    | some m => exact inv_acknowledge hc' ws run m.exec m.seq
  | acknowledging ws run exec seq chain => simp [Task.reads] at hreads

theorem inv_hibernate {c : Coordinator} (hc : Inv c)
    (hlinks : ∀ l ∈ c.links, l.phase = .settled) :
    Inv { c with
      sinceAck := fun _ => 0
      marks := fun _ => none
      persisting := fun _ => none
      duplicateAcked := [] } where
  chain := by
    have hset (run : String) (k : ℕ) : SettledBelow c.links run k :=
      fun j m _ hm _ => hlinks m (List.mem_of_getElem? hm)
    exact ⟨fun run _ => hset run _, by simp, by simp, hc.chain.own, hc.chain.first,
      hc.chain.previous, hc.chain.started⟩
  waits := hc.waits
  oneRead := hc.oneRead
  accepting := by simp

/-- A persist promise settles. -/
theorem inv_persist {c : Coordinator} (hc : Inv c) (i : ℕ) :
    Inv { c with links := c.links.modify i fun l => { l with done := true } } := by
  apply inv_modify hc
  exact {
    run := fun _ => rfl
    event := fun _ => ⟨rfl, rfl⟩
    chain := fun _ => ⟨rfl, rfl⟩
    done := fun _ _ => rfl
    settled := fun _ _ hset => hset
    started := fun m hm hphase => ⟨rfl, (hc.chain.started i m hm hphase).2⟩ }

theorem inv_step {c d : Coordinator} {a : Label} (hc : Inv c) (hG : NoReturn c a)
    (h : c.step a = some d) : Inv d := by
  have hcases := step_cases h
  cases a with
  | event ws run exec seq terminal =>
    obtain ⟨-, hgate, rfl⟩ := hcases
    exact inv_handleEvent hc hgate ws run exec seq terminal hG
  | ackRequest ws run exec seq =>
    obtain ⟨-, hgate, rfl⟩ := hcases
    exact inv_requested hc hgate ws run exec seq
  | read i =>
    obtain ⟨t, ht, hd, hreads, rfl⟩ := hcases
    exact inv_resume hc hd ht hreads
  | persist i =>
    obtain ⟨l, -, -, -, rfl⟩ := hcases
    exact inv_persist hc i
  | link i ok =>
    obtain ⟨l, hl, hready, rfl⟩ := hcases
    exact inv_runLink hc hl hready ok
  | put i =>
    obtain ⟨l, hl, -, hwriting, rfl⟩ := hcases
    exact inv_endLink hc hl hwriting
  | ack i ok =>
    obtain ⟨ws, run, exec, seq, chain, -, -, rfl⟩ := hcases
    have hc' := inv_eraseIdx hc i
    exact ⟨hc'.chain, hc'.waits, hc'.oneRead, hc'.accepting⟩
  | hibernate =>
    obtain ⟨-, -, hlinks, rfl⟩ := hcases
    exact inv_hibernate hc hlinks

/-- The events of an execution up to a seq that were classified as new are persisted. -/
def Persisted (c : Coordinator) (run exec : String) (seq : ℕ) : Prop :=
  ∀ l ∈ c.links, l.run = run → l.exec = exec → l.seq ≤ seq → l.done = true

/-- What an acknowledgement or a record says was persisted. -/
def Vouched (c : Coordinator) : Output → Prop
  | .ack _ run exec seq => c.Persisted run exec seq
  | .record run mark => c.Persisted run mark.exec mark.seq

theorem vouched_of_record {c : Coordinator} (hc : Inv c) {i : ℕ} {l : Link}
    (hl : c.links[i]? = some l) (hready : c.linkReady l = true) (ok : Bool) {o : Output}
    (ho : (c.runLink i l ok).log = c.log ++ [o]) : (c.runLink i l ok).Vouched o := by
  obtain ⟨hdone, hbelow⟩ := settledBelow_of_linkReady hc hl hready
  have hown := hc.chain.own i l hl
  by_cases hlast : c.persisting l.run = some i
  · cases ok with
    | true =>
      have hrun : c.runLink i l true = { c with
          links := c.links.modify i fun l => { l with phase := .writing }
          stored := Function.update c.stored l.run (some ⟨l.exec, l.seq⟩)
          log := c.log ++ [.record l.run ⟨l.exec, l.seq⟩] } := by
        simp [runLink, hown, hlast]
      rw [hrun] at ho ⊢
      obtain rfl : Output.record l.run ⟨l.exec, l.seq⟩ = o := by simpa using ho
      intro m hm hmrun _ _
      obtain ⟨j, hj⟩ := List.mem_iff_getElem?.mp hm
      obtain ⟨b, hb, hor⟩ := ListIndex.of_modify hj
      rcases hor with ⟨hmb, hji⟩ | ⟨hmb, hji⟩
      · subst hmb
        have hle := (hc.chain.last l.run i hlast).2 j m hb hmrun
        have hset := hbelow j m (by omega) hb hmrun
        exact (hc.chain.started j m hb (by simp [hset])).1
      · subst hmb hji
        obtain rfl : l = b := by simpa [hl] using hb
        exact hdone
    | false => simp [runLink, hown, hlast] at ho
  · simp [runLink, hown, hlast] at ho

theorem vouched_of_ack {c : Coordinator} (hc : Inv c) {ws : ℕ} {run exec : String} {seq : ℕ}
    {chain : Option ℕ} (ht : Task.acknowledging ws run exec seq chain ∈ c.tasks)
    (hchain : c.chainSettled chain = true) : c.Persisted run exec seq := by
  intro m hm hmrun hexec hseq
  obtain ⟨j, hj⟩ := List.mem_iff_getElem?.mp hm
  obtain ⟨hlink, hcovers⟩ := hc.waits _ ht
  rcases hcovers j m hj hmrun hexec hseq with hset | ⟨k, rfl, hjk⟩
  · exact (hc.chain.started j m hj (by simp [hset])).1
  · obtain ⟨l, hl, hlrun⟩ := hlink k rfl
    have hset : l.phase = .settled := by simpa [chainSettled, hl] using hchain
    obtain ⟨hdone, hbelow⟩ := hc.chain.started k l hl (by simp [hset])
    rcases Nat.lt_or_eq_of_le hjk with hlt | rfl
    · have hmset := hbelow j m hlt hj (hmrun.trans hlrun.symm)
      exact (hc.chain.started j m hj (by simp [hmset])).1
    · obtain rfl : l = m := by simpa [hl] using hj
      exact hdone

theorem log_handleEvent (c : Coordinator) (ws : ℕ) (run exec : String) (seq : ℕ)
    (terminal : Bool) : (c.handleEvent ws run exec seq terminal).log = c.log := by
  unfold handleEvent accept takeIn processed duplicate
  dsimp only
  repeat' split
  all_goals rfl

theorem log_requested (c : Coordinator) (ws : ℕ) (run exec : String) (seq : ℕ) :
    (c.requested ws run exec seq).log = c.log := by
  unfold requested answer
  repeat' split
  all_goals rfl

theorem log_resume (c : Coordinator) (t : Task) : (c.resume t).log = c.log := by
  unfold resume accept answer takeIn processed duplicate
  dsimp only
  repeat' split
  all_goals rfl

theorem log_runLink (c : Coordinator) (i : ℕ) (l : Link) (ok : Bool) :
    (c.runLink i l ok).log = c.log ∨ ∃ o, (c.runLink i l ok).log = c.log ++ [o] := by
  unfold runLink
  split
  · split_ifs
    · exact Or.inr ⟨_, rfl⟩
    · exact Or.inl rfl
    · exact Or.inl rfl
  · exact Or.inl rfl

/-- In a run that meets the guard, an acknowledgement or a record goes out only when
the persistence of every event it covers has settled. -/
theorem output_covers_persisted (stored : String → Option DeliveredMark) {c d : Coordinator}
    {a : Label} (h : StepSystem.ReachesUnder step NoReturn (init stored) c)
    (hG : NoReturn c a) (hstep : c.step a = some d) :
    d.log = c.log ∨ ∃ o, d.log = c.log ++ [o] ∧ d.Vouched o := by
  have hc : Inv c := by
    apply h.invariant (inv_init stored)
    intro t b u ht hb hu
    exact inv_step ht hb hu
  have hcases := step_cases hstep
  cases a with
  | event ws run exec seq terminal =>
    obtain ⟨-, -, rfl⟩ := hcases
    exact Or.inl (log_handleEvent c ws run exec seq terminal)
  | ackRequest ws run exec seq =>
    obtain ⟨-, -, rfl⟩ := hcases
    exact Or.inl (log_requested c ws run exec seq)
  | read i =>
    obtain ⟨t, -, -, -, rfl⟩ := hcases
    exact Or.inl (log_resume _ t)
  | persist i =>
    obtain ⟨l, -, -, -, rfl⟩ := hcases
    exact Or.inl rfl
  | link i ok =>
    obtain ⟨l, hl, hready, rfl⟩ := hcases
    apply (log_runLink c i l ok).imp_right
    intro ⟨o, ho⟩
    exact ⟨o, ho, vouched_of_record hc hl hready ok ho⟩
  | put i =>
    obtain ⟨l, -, -, -, rfl⟩ := hcases
    exact Or.inl rfl
  | ack i ok =>
    obtain ⟨ws, run, exec, seq, chain, ht, hchain, rfl⟩ := hcases
    cases ok with
    | false => exact Or.inl rfl
    | true =>
      have hvouched := vouched_of_ack hc (List.mem_of_getElem? ht) hchain
      exact Or.inr ⟨.ack ws run exec seq, rfl, hvouched⟩
  | hibernate =>
    obtain ⟨-, -, -, rfl⟩ := hcases
    exact Or.inl rfl

/-- A terminal event that is persisted before anything else happens. -/
theorem output_covers_persisted_terminal : ∃ c d,
    StepSystem.ReachesUnder step NoReturn (init fun _ => none) c ∧
      c.step (.ack 0 true) = some d ∧ d.log = c.log ++ [.ack 0 "r" "e" 1] ∧
      d.Vouched (.ack 0 "r" "e" 1) := by
  obtain ⟨c, hreach, hc⟩ := StepSystem.reachesUnder_of_test step NoReturn
    (init fun _ => none)
    [.event 0 "r" "e" 1 true, .read 0, .persist 0, .link 0 true, .put 0]
    (fun c => (c.step (.ack 0 true)).any fun d => d.log = c.log ++ [.ack 0 "r" "e" 1])
    (by decide)
  obtain ⟨d, hd, hlog⟩ := (Option.any_eq_true _ _).mp hc
  have hlog := of_decide_eq_true hlog
  refine ⟨c, d, hreach, hd, hlog, ?_⟩
  rcases output_covers_persisted (a := .ack 0 true) _ hreach trivial hd with hsame | ⟨o, ho, hvouched⟩
  · simp [hsame] at hlog
  · have heq : o = .ack 0 "r" "e" 1 := by simpa [ho] using hlog
    rw [← heq]
    exact hvouched

/-- An execution that comes back after another one: its acknowledgement goes out while an
event it covers, accepted in the meantime, is not persisted. -/
theorem ack_ahead_of_persistence : ∃ c d a o,
    StepSystem.Reaches step (init fun _ => none) c ∧ c.step a = some d ∧
      d.log = c.log ++ [o] ∧ ¬ d.Vouched o := by
  obtain ⟨c, hreach, hc⟩ := StepSystem.reachesUnder_of_test step
    (fun _ _ => True) (init fun _ => none)
    [.event 0 "r" "e1" 5 true, .read 0, .event 0 "r" "e2" 1 false,
      .event 0 "r" "e1" 3 false, .persist 0, .link 0 true]
    (fun c => (c.step (.ack 0 true)).any fun d =>
      d.log = c.log ++ [.ack 0 "r" "e1" 5] ∧
        d.links[2]?.any fun l => l.run = "r" ∧ l.exec = "e1" ∧ l.seq = 3 ∧ l.done = false)
    (by decide)
  obtain ⟨d, hd, hrest⟩ := (Option.any_eq_true _ _).mp hc
  obtain ⟨hlog, hlink⟩ := of_decide_eq_true hrest
  obtain ⟨l, hl, hlink⟩ := (Option.any_eq_true _ _).mp hlink
  obtain ⟨hrun, hexec, hseq, hdone⟩ := of_decide_eq_true hlink
  refine ⟨c, d, _, _, hreach, hd, hlog, ?_⟩
  intro hvouched
  have hall := hvouched l (List.mem_of_getElem? hl) hrun hexec (by omega)
  simp [hdone] at hall

end Coordinator

end Swazz.Delivery
