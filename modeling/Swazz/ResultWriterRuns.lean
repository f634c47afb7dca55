import Swazz.ResultWriter

/-! What becomes of the rows of a live scan, in every order of what happens. -/
namespace Swazz.ResultWriter

open StepSystem

variable {Row : Type} {c : Config} {s t : State Row} {w : Write Row} {e : Settled Row}
  {outcome : Outcome} {row : Row} {db : Bool}

/-! ### One transaction -/

/-- What the end of a transaction does with the rows of a call of `write`. -/
structure Settles (w : Write Row) (e : Settled Row) : Prop where
  begun : w.notBegun = []
  goesOn : e.next.toList.flatMap Write.notBegun = []
  left : w.left = w.inFlight
  rows : (w.inFlight : Multiset Row) =
    e.committed + e.dropped + (e.next.toList.flatMap Write.inFlight : List Row)
  retried : (w.toRetry : Multiset Row) + (e.refused.flatten : List Row) =
    e.retried + (e.next.toList.flatMap Write.toRetry : List Row)
  counted : w.count + e.dropped.length =
    (e.warning.map Prod.fst).sum + (e.next.toList.map Write.count).sum
  inOrder : (e.committed ++ e.next.toList.flatMap Write.left).Sublist w.left

theorem settles (h : w.settle outcome = some e) : Settles w e := by
  cases w with
  | waiting rows => cases h
  | batch rows =>
    cases outcome with
    | committed =>
      cases h
      exact ⟨rfl, rfl, rfl, by simp [Write.inFlight, Write.left], rfl, rfl, by simp [Write.left]⟩
    | failed =>
      cases h
      exact ⟨rfl, rfl, rfl, by simp [Write.inFlight, Write.left], rfl, by simp [Write.count],
        by simp [Write.left]⟩
    | dataCloneError =>
      cases rows with
      | nil =>
        cases h
        exact ⟨rfl, rfl, rfl, rfl, rfl, rfl, by simp [Write.left]⟩
      | cons row rest =>
        cases rest with
        | nil =>
          cases h
          exact ⟨rfl, rfl, rfl, by simp [Write.inFlight, Write.left], rfl, rfl,
            by simp [Write.left]⟩
        | cons next rest =>
          cases h
          exact ⟨rfl, rfl, rfl, by simp [Write.inFlight, Write.left],
            by simp [Write.toRetry], rfl, by simp [Write.left]⟩
  | single row rest dropped total =>
    have hdrop (hne : outcome ≠ .committed) : Settles (.single row rest dropped total) e := by
      cases rest with
      | nil =>
        cases outcome <;> first | exact absurd rfl hne | cases h
        all_goals exact ⟨rfl, rfl, rfl, by simp [Write.inFlight, Write.left], rfl,
          by simp [Write.count], by simp [Write.left]⟩
      | cons next rest =>
        cases outcome <;> first | exact absurd rfl hne | cases h
        all_goals exact ⟨rfl, rfl, rfl, by simp [Write.inFlight, Write.left],
          by simp [Write.toRetry], by simp [Write.count], by simp [Write.left]⟩
    cases outcome with
    | committed =>
      cases rest with
      | nil =>
        cases h
        exact ⟨rfl, rfl, rfl, by simp [Write.inFlight, Write.left], rfl, by simp [Write.count],
          by simp [Write.left]⟩
      | cons next rest =>
        cases h
        exact ⟨rfl, rfl, rfl, by simp [Write.inFlight, Write.left], by simp [Write.toRetry],
          by simp [Write.count], by simp [Write.left]⟩
    | dataCloneError => exact hdrop (by decide)
    | failed => exact hdrop (by decide)

/-! ### Every run -/

/-- Where the rows are, in every state: each added row is in one place only. -/
structure Accounts (c : Config) (s : State Row) : Prop where
  once : (s.journal.added : Multiset Row) = (s.journal.handed.flatten : List Row) +
    (s.journal.unhandled + (s.chain.flatMap Write.notBegun : List Row)) + s.pending
  accounted : (s.journal.handed.flatten : Multiset Row) =
    s.journal.committed + s.journal.dropped +
      (s.chain.flatMap Write.inFlight : List Row) + (s.aside.flatMap Write.inFlight : List Row)
  retried : (s.journal.refused.flatten : Multiset Row) = s.journal.retried +
    (s.chain.flatMap Write.toRetry : List Row) + (s.aside.flatMap Write.toRetry : List Row)
  counted : s.journal.dropped.length = (s.journal.warned.map Prod.fst).sum +
    (s.chain.map Write.count).sum + (s.aside.map Write.count).sum
  inOrder : (s.journal.inTurn ++ (s.chain.flatMap Write.left ++ s.pending)).Sublist s.journal.added
  written : s.writtenRows = s.journal.committed.length
  listening : s.listening = true ↔ c.window = true ∧ s.pending ≠ []
  allBegun : s.aside.flatMap Write.notBegun = []

theorem accounts_start : Accounts c (start : State Row) := by
  refine ⟨rfl, rfl, rfl, rfl, List.Sublist.refl _, rfl, ?_, rfl⟩
  simp [start]

theorem Accounts.push (h : Accounts c s) (row : Row) : Accounts c (push c s row) where
  once := by
    have honce := h.once
    simp only [ResultWriter.push, ← Multiset.coe_add]
    rw [honce]
    abel
  accounted := h.accounted
  retried := h.retried
  counted := h.counted
  inOrder := by
    have hsub := h.inOrder.append (List.Sublist.refl [row])
    simpa [ResultWriter.push, List.append_assoc] using hsub
  written := h.written
  listening := by
    have hlisten := h.listening
    cases hpending : s.pending with
    | nil =>
      have hnot : s.listening = false := by simpa [hpending] using hlisten
      simp [ResultWriter.push, hpending, hnot]
    | cons a l =>
      simpa [ResultWriter.push, hpending] using hlisten
  allBegun := h.allBegun

theorem Accounts.setTimer (h : Accounts c s) : Accounts c (setTimer s) :=
  ⟨h.once, h.accounted, h.retried, h.counted, h.inOrder, h.written, h.listening, h.allBegun⟩

theorem not_listening_take (h : Accounts c s) : (take c s).listening = false := by
  cases hwindow : c.window with
  | true => simp [take, hwindow]
  | false =>
    have hnot : s.listening = false := by simpa [hwindow] using h.listening
    simp [take, hnot]

theorem Accounts.take (h : Accounts c s) (hnone : s.pending = []) : Accounts c (take c s) where
  once := by
    have honce := h.once
    rw [hnone] at honce
    exact honce
  accounted := h.accounted
  retried := h.retried
  counted := h.counted
  inOrder := by
    have hsub := h.inOrder
    rw [hnone] at hsub
    exact hsub
  written := h.written
  listening := by
    rw [not_listening_take h]
    simp [ResultWriter.take]
  allBegun := h.allBegun

theorem Accounts.flush (h : Accounts c s) : Accounts c (flush c s) := by
  unfold ResultWriter.flush
  split_ifs with hnone
  · exact h.take hnone
  · have hconcat (f : Write Row → List Row) : (s.chain ++ [Write.waiting s.pending]).flatMap f =
        s.chain.flatMap f ++ f (Write.waiting s.pending) := by
      rw [List.flatMap_append, List.flatMap_singleton]
    refine ⟨?_, ?_, ?_, ?_, ?_, h.written, ?_, h.allBegun⟩
    · show (s.journal.added : Multiset Row) = (s.journal.handed.flatten : List Row) +
        (s.journal.unhandled + ((s.chain ++ [Write.waiting s.pending]).flatMap Write.notBegun :
          List Row)) + ([] : List Row)
      rw [h.once, hconcat, ← Multiset.coe_add, Multiset.coe_nil, Write.notBegun]
      abel
    · show (s.journal.handed.flatten : Multiset Row) = s.journal.committed + s.journal.dropped +
        ((s.chain ++ [Write.waiting s.pending]).flatMap Write.inFlight : List Row) +
        (s.aside.flatMap Write.inFlight : List Row)
      rw [hconcat, Write.inFlight, List.append_nil]
      exact h.accounted
    · show (s.journal.refused.flatten : Multiset Row) = s.journal.retried +
        ((s.chain ++ [Write.waiting s.pending]).flatMap Write.toRetry : List Row) +
        (s.aside.flatMap Write.toRetry : List Row)
      rw [hconcat, Write.toRetry, List.append_nil]
      · exact h.retried
      · intro row rest dropped total heq
        cases heq
    · show s.journal.dropped.length = (s.journal.warned.map Prod.fst).sum +
        ((s.chain ++ [Write.waiting s.pending]).map Write.count).sum + (s.aside.map Write.count).sum
      rw [List.map_append, List.sum_append]
      exact h.counted
    · show (s.journal.inTurn ++ ((s.chain ++ [Write.waiting s.pending]).flatMap Write.left ++ [])).Sublist
        s.journal.added
      rw [hconcat, List.append_nil]
      exact h.inOrder
    · show (ResultWriter.take c s).listening = true ↔ c.window = true ∧ [] ≠ []
      rw [not_listening_take h]
      simp

/-- The rows of a batch are handed over, or there is no database for them. -/
theorem coe_hand (j : Journal Row) (db : Bool) (rows : List Row) :
    ((j.hand db rows).handed.flatten : Multiset Row) + (j.hand db rows).unhandled =
      (j.handed.flatten : List Row) + (j.unhandled : Multiset Row) + rows ∧
    ((j.hand db rows).handed.flatten : Multiset Row) =
      (j.handed.flatten : List Row) + ((begun db rows).flatMap Write.inFlight : List Row) := by
  cases db with
  | true =>
    have hflat : (j.handed ++ [rows]).flatten = j.handed.flatten ++ rows := by
      rw [List.flatten_append, List.flatten_singleton]
    have hbegun : (begun true rows).flatMap Write.inFlight = rows := List.append_nil rows
    constructor
    · show (((j.handed ++ [rows]).flatten : List Row) : Multiset Row) + j.unhandled = _
      rw [hflat, ← Multiset.coe_add]
      abel
    · show (((j.handed ++ [rows]).flatten : List Row) : Multiset Row) = _
      rw [hflat, hbegun, Multiset.coe_add]
  | false =>
    constructor
    · show ((j.handed.flatten : List Row) : Multiset Row) + (j.unhandled ++ rows : List Row) = _
      rw [← Multiset.coe_add, add_assoc]
    · show ((j.handed.flatten : List Row) : Multiset Row) = _ + (([] : List Row) : Multiset Row)
      rw [Multiset.coe_nil, add_zero]

theorem begun_facts (db : Bool) (rows : List Row) :
    (begun db rows).flatMap Write.notBegun = [] ∧ (begun db rows).flatMap Write.toRetry = [] ∧
      ((begun db rows).map Write.count).sum = 0 ∧
      ((begun db rows).flatMap Write.left).Sublist rows := by
  cases db with
  | true => exact ⟨rfl, rfl, rfl, by simp [begun, Write.left]⟩
  | false => exact ⟨rfl, rfl, rfl, List.nil_sublist rows⟩

theorem hand_fields (j : Journal Row) (db : Bool) (rows : List Row) :
    (j.hand db rows).added = j.added ∧ (j.hand db rows).committed = j.committed ∧
      (j.hand db rows).dropped = j.dropped ∧ (j.hand db rows).refused = j.refused ∧
      (j.hand db rows).retried = j.retried ∧ (j.hand db rows).warned = j.warned ∧
      (j.hand db rows).inTurn = j.inTurn := by
  cases db <;> exact ⟨rfl, rfl, rfl, rfl, rfl, rfl, rfl⟩

theorem Accounts.onPageHide (h : Accounts c s) (db : Bool) : Accounts c (onPageHide c s db) := by
  unfold ResultWriter.onPageHide
  split_ifs with hnone
  · exact h.take hnone
  · obtain ⟨hhanded, hflight⟩ := coe_hand s.journal db s.pending
    obtain ⟨hwaiting, hretry, hcount, -⟩ := begun_facts db s.pending
    obtain ⟨hadded, hcommitted, hdropped, hrefused, hretried, hwarned, hturn⟩ :=
      hand_fields s.journal db s.pending
    refine ⟨?_, ?_, ?_, ?_, ?_, ?_, ?_, ?_⟩
    · show ((s.journal.hand db s.pending).added : Multiset Row) =
        ((s.journal.hand db s.pending).handed.flatten : List Row) +
        ((s.journal.hand db s.pending).unhandled + (s.chain.flatMap Write.notBegun : List Row)) +
        ([] : List Row)
      rw [hadded, h.once, Multiset.coe_nil, add_zero]
      calc ((s.journal.handed.flatten : List Row) : Multiset Row) + (s.journal.unhandled +
            (s.chain.flatMap Write.notBegun : List Row)) + s.pending
          = (s.journal.handed.flatten : List Row) + s.journal.unhandled + s.pending +
            (s.chain.flatMap Write.notBegun : List Row) := by abel
        _ = _ := by rw [← hhanded, add_assoc]
    · show ((s.journal.hand db s.pending).handed.flatten : Multiset Row) =
        (s.journal.hand db s.pending).committed + (s.journal.hand db s.pending).dropped +
        (s.chain.flatMap Write.inFlight : List Row) +
        ((s.aside ++ begun db s.pending).flatMap Write.inFlight : List Row)
      rw [hflight, hcommitted, hdropped, h.accounted, List.flatMap_append, ← Multiset.coe_add]
      abel
    · show ((s.journal.hand db s.pending).refused.flatten : Multiset Row) =
        (s.journal.hand db s.pending).retried + (s.chain.flatMap Write.toRetry : List Row) +
        ((s.aside ++ begun db s.pending).flatMap Write.toRetry : List Row)
      rw [hrefused, hretried, List.flatMap_append, hretry, List.append_nil]
      exact h.retried
    · show (s.journal.hand db s.pending).dropped.length =
        ((s.journal.hand db s.pending).warned.map Prod.fst).sum + (s.chain.map Write.count).sum +
        ((s.aside ++ begun db s.pending).map Write.count).sum
      rw [hdropped, hwarned, List.map_append, List.sum_append, hcount]
      exact h.counted
    · show ((s.journal.hand db s.pending).inTurn ++ (s.chain.flatMap Write.left ++ [])).Sublist
        (s.journal.hand db s.pending).added
      rw [hturn, hadded, List.append_nil]
      exact ((List.sublist_append_left _ _).append_left _).trans h.inOrder
    · show s.writtenRows = (s.journal.hand db s.pending).committed.length
      rw [hcommitted]
      exact h.written
    · show (ResultWriter.take c s).listening = true ↔ c.window = true ∧ [] ≠ []
      rw [not_listening_take h]
      simp
    · show (s.aside ++ begun db s.pending).flatMap Write.notBegun = []
      rw [List.flatMap_append, h.allBegun, hwaiting]
      rfl

theorem Accounts.start {rows : List Row} {rest : List (Write Row)} (h : Accounts c s)
    (hchain : s.chain = .waiting rows :: rest) (db : Bool) (settled : ℕ) :
    Accounts c { s with
      chain := ResultWriter.begun db rows ++ rest
      settled := settled
      journal := s.journal.hand db rows } := by
  obtain ⟨hhanded, hflight⟩ := coe_hand s.journal db rows
  obtain ⟨hwaiting, hretry, hcount, hleft⟩ := begun_facts db rows
  obtain ⟨hadded, hcommitted, hdropped, hrefused, hretried, hwarned, hturn⟩ :=
    hand_fields s.journal db rows
  have honce := h.once
  have haccounted := h.accounted
  have hretries := h.retried
  have hcounted := h.counted
  have horder := h.inOrder
  rw [hchain, List.flatMap_cons] at honce haccounted hretries horder
  rw [hchain, List.map_cons, List.sum_cons] at hcounted
  refine ⟨?_, ?_, ?_, ?_, ?_, ?_, h.listening, h.allBegun⟩
  · show ((s.journal.hand db rows).added : Multiset Row) =
      ((s.journal.hand db rows).handed.flatten : List Row) + ((s.journal.hand db rows).unhandled +
      ((begun db rows ++ rest).flatMap Write.notBegun : List Row)) + s.pending
    rw [hadded, honce, List.flatMap_append, hwaiting, List.nil_append, ← Multiset.coe_add]
    calc ((s.journal.handed.flatten : List Row) : Multiset Row) + (s.journal.unhandled +
          (rows + (rest.flatMap Write.notBegun : List Row))) + s.pending
        = (s.journal.handed.flatten : List Row) + s.journal.unhandled + rows +
          (rest.flatMap Write.notBegun : List Row) + s.pending := by abel
      _ = _ := by
        rw [← hhanded]
        abel
  · show ((s.journal.hand db rows).handed.flatten : Multiset Row) =
      (s.journal.hand db rows).committed + (s.journal.hand db rows).dropped +
      ((begun db rows ++ rest).flatMap Write.inFlight : List Row) +
      (s.aside.flatMap Write.inFlight : List Row)
    rw [hflight, hcommitted, hdropped, haccounted, List.flatMap_append, Write.inFlight,
      List.nil_append, ← Multiset.coe_add]
    abel
  · show ((s.journal.hand db rows).refused.flatten : Multiset Row) =
      (s.journal.hand db rows).retried + ((begun db rows ++ rest).flatMap Write.toRetry : List Row) +
      (s.aside.flatMap Write.toRetry : List Row)
    rw [hrefused, hretried, List.flatMap_append, hretry]
    exact hretries
  · show (s.journal.hand db rows).dropped.length =
      ((s.journal.hand db rows).warned.map Prod.fst).sum +
      ((begun db rows ++ rest).map Write.count).sum + (s.aside.map Write.count).sum
    rw [hdropped, hwarned, List.map_append, List.sum_append, hcount]
    exact hcounted
  · show ((s.journal.hand db rows).inTurn ++
      ((begun db rows ++ rest).flatMap Write.left ++ s.pending)).Sublist
      (s.journal.hand db rows).added
    rw [hturn, hadded, List.flatMap_append]
    refine List.Sublist.trans ?_ horder
    exact ((hleft.append (List.Sublist.refl _)).append (List.Sublist.refl _)).append_left _
  · show s.writtenRows = (s.journal.hand db rows).committed.length
    rw [hcommitted]
    exact h.written

/-- A transaction of the chain ends. -/
theorem Accounts.settle {rest : List (Write Row)} (h : Accounts c s) (hchain : s.chain = w :: rest)
    (hw : Settles w e) (settled : ℕ) (rejected : Bool) :
    Accounts c { absorb s e with
      chain := e.next.toList ++ rest
      settled := settled
      rejected := rejected
      journal := { (absorb s e).journal with inTurn := s.journal.inTurn ++ e.committed } } := by
  have honce := h.once
  have haccounted := h.accounted
  have hretries := h.retried
  have hcounted := h.counted
  have horder := h.inOrder
  rw [hchain, List.flatMap_cons] at honce haccounted hretries horder
  rw [hchain, List.map_cons, List.sum_cons] at hcounted
  refine ⟨?_, ?_, ?_, ?_, ?_, ?_, h.listening, h.allBegun⟩
  · show (s.journal.added : Multiset Row) = (s.journal.handed.flatten : List Row) +
      (s.journal.unhandled + ((e.next.toList ++ rest).flatMap Write.notBegun : List Row)) +
      s.pending
    rw [List.flatMap_append, hw.goesOn]
    rw [hw.begun] at honce
    exact honce
  · show (s.journal.handed.flatten : Multiset Row) =
      (s.journal.committed ++ e.committed : List Row) + (s.journal.dropped ++ e.dropped : List Row) +
      ((e.next.toList ++ rest).flatMap Write.inFlight : List Row) +
      (s.aside.flatMap Write.inFlight : List Row)
    rw [haccounted, List.flatMap_append, ← Multiset.coe_add, ← Multiset.coe_add,
      ← Multiset.coe_add, ← Multiset.coe_add, hw.rows]
    abel
  · show ((s.journal.refused ++ e.refused).flatten : Multiset Row) =
      (s.journal.retried ++ e.retried : List Row) +
      ((e.next.toList ++ rest).flatMap Write.toRetry : List Row) +
      (s.aside.flatMap Write.toRetry : List Row)
    rw [List.flatten_append, ← Multiset.coe_add, hretries, List.flatMap_append,
      ← Multiset.coe_add, ← Multiset.coe_add, ← Multiset.coe_add]
    calc (s.journal.retried : Multiset Row) +
          (w.toRetry + (rest.flatMap Write.toRetry : List Row)) +
          (s.aside.flatMap Write.toRetry : List Row) + (e.refused.flatten : List Row)
        = s.journal.retried + (w.toRetry + (e.refused.flatten : List Row)) +
          (rest.flatMap Write.toRetry : List Row) +
          (s.aside.flatMap Write.toRetry : List Row) := by abel
      _ = _ := by
        rw [hw.retried]
        abel
  · show (s.journal.dropped ++ e.dropped).length =
      ((s.journal.warned ++ e.warning).map Prod.fst).sum +
      ((e.next.toList ++ rest).map Write.count).sum + (s.aside.map Write.count).sum
    have hcount := hw.counted
    rw [List.length_append, List.map_append, List.sum_append, List.map_append, List.sum_append]
    omega
  · show (s.journal.inTurn ++ e.committed ++
      ((e.next.toList ++ rest).flatMap Write.left ++ s.pending)).Sublist s.journal.added
    have hsub := (hw.inOrder.append (List.Sublist.refl (rest.flatMap Write.left ++ s.pending)))
    refine List.Sublist.trans ?_ horder
    rw [List.flatMap_append, List.append_assoc, List.append_assoc]
    refine List.Sublist.append_left ?_ _
    simpa only [List.append_assoc] using hsub
  · show s.writtenRows + e.committed.length = (s.journal.committed ++ e.committed).length
    rw [List.length_append, h.written]

/-- A transaction of a batch of `pagehide` ends. -/
theorem Accounts.settleAside {l l' : List (Write Row)} (h : Accounts c s)
    (haside : s.aside = l ++ w :: l') (hw : Settles w e) :
    Accounts c { absorb s e with aside := l ++ (e.next.toList ++ l') } := by
  have haccounted := h.accounted
  have hretries := h.retried
  have hcounted := h.counted
  have hbegun := h.allBegun
  rw [haside, List.flatMap_append, List.flatMap_cons] at haccounted hretries hbegun
  rw [haside, List.map_append, List.map_cons, List.sum_append, List.sum_cons] at hcounted
  refine ⟨h.once, ?_, ?_, ?_, h.inOrder, ?_, h.listening, ?_⟩
  · show (s.journal.handed.flatten : Multiset Row) =
      (s.journal.committed ++ e.committed : List Row) + (s.journal.dropped ++ e.dropped : List Row) +
      (s.chain.flatMap Write.inFlight : List Row) +
      ((l ++ (e.next.toList ++ l')).flatMap Write.inFlight : List Row)
    rw [haccounted, List.flatMap_append, List.flatMap_append, ← Multiset.coe_add,
      ← Multiset.coe_add, ← Multiset.coe_add, ← Multiset.coe_add, ← Multiset.coe_add,
      ← Multiset.coe_add, hw.rows]
    abel
  · show ((s.journal.refused ++ e.refused).flatten : Multiset Row) =
      (s.journal.retried ++ e.retried : List Row) + (s.chain.flatMap Write.toRetry : List Row) +
      ((l ++ (e.next.toList ++ l')).flatMap Write.toRetry : List Row)
    rw [List.flatten_append, List.flatMap_append, List.flatMap_append, ← Multiset.coe_add,
      hretries, ← Multiset.coe_add, ← Multiset.coe_add, ← Multiset.coe_add, ← Multiset.coe_add,
      ← Multiset.coe_add]
    calc (s.journal.retried : Multiset Row) + (s.chain.flatMap Write.toRetry : List Row) +
          ((l.flatMap Write.toRetry : List Row) +
            (w.toRetry + (l'.flatMap Write.toRetry : List Row))) + (e.refused.flatten : List Row)
        = s.journal.retried + (s.chain.flatMap Write.toRetry : List Row) +
          ((l.flatMap Write.toRetry : List Row) + ((w.toRetry + (e.refused.flatten : List Row)) +
            (l'.flatMap Write.toRetry : List Row))) := by abel
      _ = _ := by
        rw [hw.retried]
        abel
  · show (s.journal.dropped ++ e.dropped).length =
      ((s.journal.warned ++ e.warning).map Prod.fst).sum + (s.chain.map Write.count).sum +
      ((l ++ (e.next.toList ++ l')).map Write.count).sum
    have hcount := hw.counted
    rw [List.length_append, List.map_append, List.sum_append, List.map_append, List.sum_append,
      List.map_append, List.sum_append]
    omega
  · show s.writtenRows + e.committed.length = (s.journal.committed ++ e.committed).length
    rw [List.length_append, h.written]
  · show (l ++ (e.next.toList ++ l')).flatMap Write.notBegun = []
    rw [List.flatMap_append, List.flatMap_append, hw.goesOn]
    rw [hw.begun] at hbegun
    exact hbegun

theorem Accounts.flushes (h : Accounts c s) (flushes resolved : List Flush) :
    Accounts c { s with flushes := flushes, resolved := resolved } :=
  ⟨h.once, h.accounted, h.retried, h.counted, h.inOrder, h.written, h.listening, h.allBegun⟩

theorem accounts_step (h : Accounts c s) (event : Event Row) (hstep : step c s event = some t) :
    Accounts c t := by
  cases event with
  | add row =>
    cases hstep
    unfold add
    split_ifs
    · exact (h.push row).flush
    · exact (h.push row).setTimer
  | timer =>
    obtain ⟨-, hstep⟩ := Option.ite_none_right_eq_some.mp hstep
    cases hstep
    exact h.flush
  | pagehide db =>
    cases hstep
    split_ifs
    · exact h.onPageHide db
    · exact h
  | flush =>
    cases hstep
    exact h.flush.flushes _ _
  | start db =>
    cases hchain : s.chain with
    | nil => simp [step, hchain] at hstep
    | cons w rest =>
      cases w with
      | waiting rows =>
        simp only [step, hchain] at hstep
        obtain ⟨-, hstep⟩ := Option.ite_none_left_eq_some.mp hstep
        cases hstep
        exact h.start hchain db _
      | batch => simp [step, hchain] at hstep
      | single => simp [step, hchain] at hstep
  | settle outcome throws =>
    cases hchain : s.chain with
    | nil => simp [step, hchain] at hstep
    | cons w rest =>
      simp only [step, hchain] at hstep
      obtain ⟨e, he, rfl⟩ := Option.map_eq_some_iff.mp hstep
      exact h.settle hchain (settles he) _ _
  | settleAside i outcome =>
    cases haside : s.aside[i]? with
    | none => simp [step, haside] at hstep
    | some w =>
      simp only [step, haside] at hstep
      obtain ⟨e, he, rfl⟩ := Option.map_eq_some_iff.mp hstep
      obtain ⟨hi, rfl⟩ := List.getElem?_eq_some_iff.mp haside
      refine h.settleAside ?_ (settles he)
      rw [← List.drop_eq_getElem_cons hi, List.take_append_drop]
  | resolve i =>
    cases hflush : s.flushes[i]? with
    | none => simp [step, hflush] at hstep
    | some f =>
      simp only [step, hflush] at hstep
      obtain ⟨-, hstep⟩ := Option.ite_none_right_eq_some.mp hstep
      cases hstep
      exact h.flushes _ _

/-! ### What a flush waits for -/

/-- There is a database, `onWritten` returns, and `flush` is called while no batch of `pagehide` is
being written. -/
def Meets (s : State Row) : Event Row → Prop
  | .flush => s.aside = []
  | .pagehide db | .start db => db = true
  | .settle _ throws => throws = false
  | _ => True

instance instDecidableMeets (s : State Row) : (event : Event Row) → Decidable (Meets s event)
  | .flush => inferInstanceAs (Decidable (s.aside = []))
  | .pagehide db => inferInstanceAs (Decidable (db = true))
  | .start db => inferInstanceAs (Decidable (db = true))
  | .settle _ throws => inferInstanceAs (Decidable (throws = false))
  | .add _ | .timer | .settleAside _ _ | .resolve _ => inferInstanceAs (Decidable True)

/-- The rows of which something is known once so many batches of the chain are. -/
def covers (s : State Row) (behind : ℕ) : Multiset Row :=
  s.journal.committed + s.journal.dropped +
    ((s.chain.take (behind - s.settled)).flatMap Write.left : List Row)

/-- The rows added before a flush was called are among these. -/
def Covered (s : State Row) (rows behind : ℕ) : Prop :=
  rows ≤ s.journal.added.length ∧ (s.journal.added.take rows : Multiset Row) ≤ covers s behind

structure Promised (s : State Row) : Prop where
  handled : s.journal.unhandled = []
  sound : s.rejected = false
  issued : s.issued = s.settled + s.chain.length
  flushes : ∀ f ∈ s.flushes, Covered s f.rows f.behind
  resolved : ∀ f ∈ s.resolved, Covered s f.rows 0

/-- What a step leaves of the rows that are covered. -/
structure Grows (s t : State Row) : Prop where
  added : s.journal.added <+: t.journal.added
  covers : ∀ behind, covers s behind ≤ covers t behind

theorem Grows.covered (h : Grows s t) {rows behind : ℕ} (hs : Covered s rows behind) :
    Covered t rows behind := by
  obtain ⟨l, hl⟩ := h.added
  refine ⟨?_, ?_⟩
  · rw [← hl, List.length_append]
    exact Nat.le_add_right_of_le hs.1
  · rw [← hl, List.take_append_of_le_length hs.1]
    exact hs.2.trans (h.covers behind)

theorem grows_push (c : Config) (s : State Row) (row : Row) : Grows s (push c s row) :=
  ⟨List.prefix_append _ _, fun _ => le_rfl⟩

/-- A batch that is chained changes nothing for the flushes before it. -/
theorem grows_flush (c : Config) (s : State Row) : Grows s (flush c s) := by
  unfold flush
  split_ifs
  · exact ⟨List.prefix_rfl, fun _ => le_rfl⟩
  · refine ⟨List.prefix_rfl, fun behind => ?_⟩
    show covers s behind ≤ s.journal.committed + s.journal.dropped +
      (((s.chain ++ [Write.waiting s.pending]).take (behind - s.settled)).flatMap Write.left :
        List Row)
    rw [List.take_append, List.flatMap_append, ← Multiset.coe_add, ← add_assoc]
    exact Multiset.le_add_right _ _

theorem grows_onPageHide (c : Config) (s : State Row) (db : Bool) :
    Grows s (onPageHide c s db) := by
  unfold onPageHide
  split_ifs
  · exact ⟨List.prefix_rfl, fun _ => le_rfl⟩
  · obtain ⟨hadded, hcommitted, hdropped, -⟩ := hand_fields s.journal db s.pending
    refine ⟨?_, fun behind => ?_⟩
    · show s.journal.added <+: (s.journal.hand db s.pending).added
      exact hadded ▸ List.prefix_rfl
    · show covers s behind ≤ (s.journal.hand db s.pending).committed +
        (s.journal.hand db s.pending).dropped +
        ((s.chain.take (behind - s.settled)).flatMap Write.left : List Row)
      rw [hcommitted, hdropped]
      exact le_rfl

theorem grows_start {rows : List Row} {rest : List (Write Row)}
    (hchain : s.chain = .waiting rows :: rest) :
    Grows s { s with
      chain := .batch rows :: rest
      journal := s.journal.hand true rows } := by
  refine ⟨List.prefix_rfl, fun behind => ?_⟩
  show covers s behind ≤ s.journal.committed + s.journal.dropped +
    (((Write.batch rows :: rest).take (behind - s.settled)).flatMap Write.left : List Row)
  rw [covers, hchain]
  cases behind - s.settled with
  | zero => exact le_rfl
  | succ n => exact le_rfl

theorem left_eq (w : Write Row) : w.left = w.notBegun ++ w.inFlight := by
  cases w with
  | waiting rows => exact (List.append_nil rows).symm
  | batch | single => rfl

/-- What the first batch of the chain loses has been stored or dropped. -/
theorem grows_settle {rest : List (Write Row)} (hchain : s.chain = w :: rest) (hw : Settles w e)
    (rejected : Bool) :
    Grows s { absorb s e with
      chain := e.next.toList ++ rest
      settled := if e.next.isNone then s.settled + 1 else s.settled
      rejected := rejected
      journal := { (absorb s e).journal with inTurn := s.journal.inTurn ++ e.committed } } := by
  refine ⟨List.prefix_rfl, fun behind => ?_⟩
  show covers s behind ≤ (s.journal.committed ++ e.committed : List Row) +
    (s.journal.dropped ++ e.dropped : List Row) + (((e.next.toList ++ rest).take
      (behind - if e.next.isNone then s.settled + 1 else s.settled)).flatMap Write.left : List Row)
  have hrows := hw.rows
  have hnext := hw.goesOn
  rw [covers, hchain, ← Multiset.coe_add, ← Multiset.coe_add]
  cases hn : behind - s.settled with
  | zero =>
    rw [List.take_zero, List.flatMap_nil, Multiset.coe_nil, add_zero]
    exact (add_le_add (Multiset.le_add_right _ _) (Multiset.le_add_right _ _)).trans
      (Multiset.le_add_right _ _)
  | succ n =>
    rw [List.take_succ_cons, List.flatMap_cons, hw.left, ← Multiset.coe_add, hrows]
    cases hnone : e.next with
    | none =>
      have hless : behind - (s.settled + 1) = n := by omega
      simp only [Option.isNone_none, if_true, Option.toList_none, List.nil_append,
        List.flatMap_nil, Multiset.coe_nil, add_zero, hless]
      exact le_of_eq (by abel)
    | some w' =>
      rw [hnone, Option.toList_some, List.flatMap_singleton] at hnext
      have hleft : w'.left = w'.inFlight := by rw [left_eq, hnext, List.nil_append]
      simp only [Option.isNone_some, Bool.false_eq_true, if_false, Option.toList_some,
        List.singleton_append, hn, List.take_succ_cons, List.flatMap_cons, hleft, ← Multiset.coe_add]
      exact le_of_eq (by abel)

theorem grows_settleAside (l : List (Write Row)) (e : Settled Row) :
    Grows s { absorb s e with aside := l } := by
  refine ⟨List.prefix_rfl, fun behind => ?_⟩
  show covers s behind ≤ (s.journal.committed ++ e.committed : List Row) +
    (s.journal.dropped ++ e.dropped : List Row) +
    ((s.chain.take (behind - s.settled)).flatMap Write.left : List Row)
  rw [covers, ← Multiset.coe_add, ← Multiset.coe_add]
  exact add_le_add (add_le_add (Multiset.le_add_right _ _) (Multiset.le_add_right _ _)) le_rfl

theorem coe_left (l : List (Write Row)) : (l.flatMap Write.left : Multiset Row) =
    (l.flatMap Write.notBegun : List Row) + (l.flatMap Write.inFlight : List Row) := by
  induction l with
  | nil => rfl
  | cons w l ih =>
    simp only [List.flatMap_cons, ← Multiset.coe_add, ih, left_eq w]
    abel

theorem Promised.keeps (h : Promised s) (hgrows : Grows s t)
    (hhandled : t.journal.unhandled = s.journal.unhandled) (hsound : t.rejected = s.rejected)
    (hissued : t.issued = t.settled + t.chain.length) (hflushes : t.flushes = s.flushes)
    (hresolved : t.resolved = s.resolved) : Promised t where
  handled := hhandled.trans h.handled
  sound := hsound.trans h.sound
  issued := hissued
  flushes f hf := hgrows.covered (h.flushes f (hflushes ▸ hf))
  resolved f hf := hgrows.covered (h.resolved f (hresolved ▸ hf))

theorem Promised.flush (h : Promised s) (c : Config) : Promised (flush c s) := by
  refine h.keeps (grows_flush c s) ?_ ?_ ?_ ?_ ?_ <;> unfold ResultWriter.flush <;> split_ifs
  any_goals rfl
  · exact h.issued
  · show s.issued + 1 = s.settled + (s.chain ++ [Write.waiting s.pending]).length
    rw [List.length_append, h.issued]
    rfl

theorem flush_fields (c : Config) (s : State Row) : (flush c s).pending = [] ∧
    (flush c s).aside = s.aside ∧ (flush c s).journal = s.journal := by
  unfold flush
  split_ifs <;> exact ⟨rfl, rfl, rfl⟩

/-- Without a batch of `pagehide`, all that has been added is behind the promise of a flush. -/
theorem covered_flush (haccounts : Accounts c s) (hpromised : Promised s) (haside : s.aside = []) :
    Covered (flush c s) s.journal.added.length (flush c s).issued := by
  obtain ⟨hpending, haside', hjournal⟩ := flush_fields c s
  have honce := haccounts.flush.once
  have hnone := (hpromised.flush c).handled
  have hall : (flush c s).issued - (flush c s).settled = (flush c s).chain.length := by
    rw [(hpromised.flush c).issued, Nat.add_sub_cancel_left]
  rw [hnone, hpending, haccounts.flush.accounted, haside', haside, List.flatMap_nil,
    Multiset.coe_nil, add_zero, add_zero, zero_add] at honce
  refine ⟨hjournal ▸ le_rfl, ?_⟩
  rw [covers, hall, List.take_length, coe_left, ← hjournal, List.take_length, honce]
  exact le_of_eq (by abel)

theorem promised_step (haccounts : Accounts c s) (h : Promised s) (event : Event Row)
    (hmeets : Meets s event) (hstep : step c s event = some t) : Promised t := by
  cases event with
  | add row =>
    cases hstep
    have hpush : Promised (push c s row) :=
      h.keeps (grows_push c s row) rfl rfl h.issued rfl rfl
    unfold add
    split_ifs
    · exact hpush.flush c
    · exact hpush.keeps ⟨List.prefix_rfl, fun _ => le_rfl⟩ rfl rfl hpush.issued rfl rfl
  | timer =>
    obtain ⟨-, hstep⟩ := Option.ite_none_right_eq_some.mp hstep
    cases hstep
    exact h.flush c
  | pagehide db =>
    cases hstep
    have hdb : db = true := hmeets
    subst hdb
    split_ifs
    · refine h.keeps (grows_onPageHide c s true) ?_ ?_ ?_ ?_ ?_ <;>
        unfold onPageHide <;> split_ifs <;> first | rfl | exact h.issued
    · exact h
  | flush =>
    have hflush := h.flush c
    have hnew := covered_flush haccounts h hmeets
    cases hstep
    refine ⟨hflush.handled, hflush.sound, hflush.issued, ?_, hflush.resolved⟩
    intro f hf
    rcases List.mem_append.mp hf with hf | hf
    · have hold : s.flushes = (ResultWriter.flush c s).flushes := by
        unfold ResultWriter.flush
        split_ifs <;> rfl
      exact hflush.flushes f (hold ▸ hf)
    · rw [List.mem_singleton.mp hf]
      exact hnew
  | start db =>
    have hdb : db = true := hmeets
    subst hdb
    cases hchain : s.chain with
    | nil => simp [step, hchain] at hstep
    | cons w rest =>
      cases w with
      | waiting rows =>
        simp only [step, hchain] at hstep
        obtain ⟨-, hstep⟩ := Option.ite_none_left_eq_some.mp hstep
        cases hstep
        refine h.keeps (grows_start hchain) rfl rfl ?_ rfl rfl
        rw [h.issued, hchain]
        rfl
      | batch => simp [step, hchain] at hstep
      | single => simp [step, hchain] at hstep
  | settle outcome throws =>
    have hthrows : throws = false := hmeets
    subst hthrows
    cases hchain : s.chain with
    | nil => simp [step, hchain] at hstep
    | cons w rest =>
      simp only [step, hchain, Bool.not_false, Bool.and_true, Bool.and_false, Bool.or_false] at hstep
      obtain ⟨e, he, rfl⟩ := Option.map_eq_some_iff.mp hstep
      refine h.keeps (grows_settle hchain (settles he) s.rejected) rfl rfl ?_ rfl rfl
      show s.issued = (if e.next.isNone then s.settled + 1 else s.settled) +
        (e.next.toList ++ rest).length
      rw [h.issued, hchain, List.length_append, List.length_cons]
      cases e.next with
      | none => simp; omega
      | some w' => simp; omega
  | settleAside i outcome =>
    cases haside : s.aside[i]? with
    | none => simp [step, haside] at hstep
    | some w =>
      simp only [step, haside] at hstep
      obtain ⟨e, he, rfl⟩ := Option.map_eq_some_iff.mp hstep
      exact h.keeps (grows_settleAside _ e) rfl rfl h.issued rfl rfl
  | resolve i =>
    cases hflush : s.flushes[i]? with
    | none => simp [step, hflush] at hstep
    | some f =>
      simp only [step, hflush] at hstep
      obtain ⟨hbehind, hstep⟩ := Option.ite_none_right_eq_some.mp hstep
      cases hstep
      refine ⟨h.handled, h.sound, h.issued, ?_, ?_⟩
      · exact fun g hg => h.flushes g (List.mem_of_mem_eraseIdx hg)
      · intro g hg
        rcases List.mem_append.mp hg with hg | hg
        · exact h.resolved g hg
        · rw [List.mem_singleton.mp hg]
          have hcovered := h.flushes f (List.mem_of_getElem? hflush)
          have hzero : f.behind - s.settled = 0 - s.settled := by omega
          rw [Covered, covers, hzero] at hcovered
          exact hcovered

theorem promised_start : Promised (start : State Row) where
  handled := rfl
  sound := rfl
  issued := rfl
  flushes f hf := by cases hf
  resolved f hf := by cases hf

/-- What is true of the rows in a state. -/
structure Kept (c : Config) (s : State Row) : Prop where
  once : s.journal.added.Perm
    (s.journal.handed.flatten ++ (s.chain.flatMap Write.notBegun ++ s.pending))
  accounted : s.journal.handed.flatten.Perm (s.journal.committed ++ s.journal.dropped ++
    (s.chain.flatMap Write.inFlight ++ s.aside.flatMap Write.inFlight))
  retried : s.journal.refused.flatten.Perm (s.journal.retried ++
    (s.chain.flatMap Write.toRetry ++ s.aside.flatMap Write.toRetry))
  counted : s.journal.dropped.length = (s.journal.warned.map Prod.fst).sum +
    (s.chain.map Write.count).sum + (s.aside.map Write.count).sum
  inOrder : s.journal.inTurn.Sublist s.journal.added
  listening : s.listening = true ↔ c.window = true ∧ s.pending ≠ []
  flushed : ∀ f ∈ s.resolved,
    (s.journal.added.take f.rows).Subperm (s.journal.committed ++ s.journal.dropped)

theorem kept (haccounts : Accounts c s) (hpromised : Promised s) : Kept c s where
  once := by
    have honce := haccounts.once
    rw [hpromised.handled, Multiset.coe_nil, zero_add, add_assoc, Multiset.coe_add,
      Multiset.coe_add] at honce
    exact Multiset.coe_eq_coe.mp honce
  accounted := by
    have haccounted := haccounts.accounted
    rw [add_assoc, Multiset.coe_add, Multiset.coe_add, Multiset.coe_add] at haccounted
    exact Multiset.coe_eq_coe.mp haccounted
  retried := by
    have hretried := haccounts.retried
    rw [add_assoc, Multiset.coe_add, Multiset.coe_add] at hretried
    exact Multiset.coe_eq_coe.mp hretried
  counted := haccounts.counted
  inOrder := (List.sublist_append_left _ _).trans haccounts.inOrder
  listening := haccounts.listening
  flushed f hf := by
    have hcovered := (hpromised.resolved f hf).2
    rw [covers, Nat.zero_sub, List.take_zero, List.flatMap_nil, Multiset.coe_nil, add_zero,
      Multiset.coe_add] at hcovered
    exact Multiset.coe_le.mp hcovered

/-- Rows are not lost or repeated, batches keep their order, the listener is there while rows wait,
and a flush waits for all rows before it, if none is called while a batch of `pagehide` is being
written. -/
theorem rows_are_kept (c : Config) (s : State Row)
    (h : ReachesUnder (step c) Meets start s) : Kept c s := by
  have hboth : Accounts c s ∧ Promised s := by
    refine ReachesUnder.invariant (I := fun s => Accounts c s ∧ Promised s)
      ⟨accounts_start, promised_start⟩ ?_ h
    rintro t event u ⟨haccounts, hpromised⟩ hmeets hstep
    exact ⟨accounts_step haccounts event hstep,
      promised_step haccounts hpromised event hmeets hstep⟩
  exact kept hboth.1 hboth.2

theorem rows_are_kept_flushed : ∃ s : State ℕ,
    (s.resolved = [⟨1, 1⟩] ∧ s.journal.committed = [7]) ∧ Kept ⟨500, true⟩ s := by
  obtain ⟨s, hreach, htest⟩ := reachesUnder_of_test (step ⟨500, true⟩) Meets (start : State ℕ)
    [.add 7, .flush, .start true, .settle .committed false, .resolve 0]
    (fun s => s.resolved = [⟨1, 1⟩] && s.journal.committed = [7]) (by decide)
  exact ⟨s, by simpa using htest, rows_are_kept ⟨500, true⟩ s hreach⟩

/-- The flush after a `pagehide` resolves while its batch is being written. -/
theorem resolves_before_written : ∃ s : State ℕ, Reaches (step ⟨500, true⟩) start s ∧
    ¬∀ f ∈ s.resolved,
      (s.journal.added.take f.rows).Subperm (s.journal.committed ++ s.journal.dropped) := by
  obtain ⟨s, hreach, htest⟩ := reachesUnder_of_test (step ⟨500, true⟩) (fun _ _ => True)
    (start : State ℕ) [.add 7, .pagehide true, .flush, .resolve 0]
    (fun s => s.resolved = [⟨0, 1⟩] && s.journal.added = [7] && s.journal.committed = [] &&
      s.journal.dropped = []) (by decide)
  simp only [Bool.and_eq_true, decide_eq_true_eq] at htest
  obtain ⟨⟨⟨hresolved, hadded⟩, hcommitted⟩, hdropped⟩ := htest
  refine ⟨s, hreach, fun hall => ?_⟩
  have hflushed := (hall ⟨0, 1⟩ (hresolved ▸ List.mem_cons_self)).length_le
  rw [hadded, hcommitted, hdropped] at hflushed
  exact absurd hflushed (by decide)

end Swazz.ResultWriter
