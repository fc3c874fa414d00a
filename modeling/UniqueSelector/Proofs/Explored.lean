import UniqueSelector.Proofs.Budget

/-!
# Explored — what the shortening of a path has found at any time, whoever answers

A refused query ends the shortening in the midst of its rows, and what was found until then is lost
with it. Here the state is handed over in any case. A provider may refuse each query, so that what
is said of this state is said of every moment between two queries.
-/

namespace UniqueSelector

open Attempt Progress

namespace Quest

variable {q : Quest}

/-! ## 1. No bound -/

/-- One generation: each inner candidate of a long path is left out in turn, and `explore` shortens
the variants. -/
def generation (q : Quest) (explore : Path → Shortening → Attempt Shortening) (path : Path)
    (s : Shortening) :
    Attempt Shortening :=
  if path.length ≤ 2 || path.length ≤ q.settings.optimizedMinLength then return s
  else q.leaveOut explore path (path.length - 2) 1 s

/-- The shortening of `path` from the state `s` on. -/
def shortenFrom (q : Quest) (path : Path) (s : Shortening) : Attempt Shortening :=
  q.shortenWithin path.length path s

theorem leaveOut_congr {explore explore' : Path → Shortening → Attempt Shortening} {path : Path}
    (h : ∀ shorter s, shorter.length + 1 = path.length → explore shorter s = explore' shorter s)
    {count i : Nat} (hcount : i + count ≤ path.length) (s : Shortening) :
    q.leaveOut explore path count i s = q.leaveOut explore' path count i s := by
  induction count generalizing i s with
  | zero => rfl
  | succ count ih =>
    -- The rest of the row agrees by induction, and what the row hands on is shorter by one.
    have hlength : (path.eraseIdx i).length + 1 = path.length := by
      rw [List.length_eraseIdx_of_lt (by omega)]
      omega
    have hrest : ∀ s, q.leaveOut explore path count (i + 1) s =
        q.leaveOut explore' path count (i + 1) s :=
      fun s => ih (by omega) s
    simp only [leaveOut, hrest, h _ _ hlength]

theorem generation_congr {explore explore' : Path → Shortening → Attempt Shortening} {path : Path}
    (h : ∀ shorter s, shorter.length + 1 = path.length → explore shorter s = explore' shorter s)
    (s : Shortening) :
    q.generation explore path s = q.generation explore' path s := by
  rw [generation, generation]
  split
  · rfl
  · next hlong =>
    rw [Bool.or_eq_true, decide_eq_true_eq] at hlong
    exact leaveOut_congr h (by omega) s

theorem shortenWithin_succ (depth : Nat) (path : Path) (s : Shortening) :
    q.shortenWithin (depth + 1) path s = q.generation (q.shortenWithin depth) path s := by
  rw [shortenWithin, generation]

/-- A path is as long as it is deep: what is left of it never comes to the bound. -/
theorem shortenFrom_eq (path : Path) (s : Shortening) :
    q.shortenFrom path s = q.generation q.shortenFrom path s := by
  rw [shortenFrom]
  cases hlength : path.length with
  | zero =>
    have hshort : (path.length ≤ 2 || path.length ≤ q.settings.optimizedMinLength) = true := by
      rw [Bool.or_eq_true, decide_eq_true_eq]
      omega
    rw [shortenWithin, generation, if_pos hshort]
  | succ depth =>
    rw [shortenWithin_succ]
    apply generation_congr
    intro shorter s hshorter
    rw [hlength] at hshorter
    rw [shortenFrom, Nat.succ.inj hshorter]

/-- **The shortening goes on without a bound and comes to an end**: it is the one exploration whose
variants are explored as it explores the path itself. -/
theorem eq_shortenFrom_iff {explore : Path → Shortening → Attempt Shortening} :
    (∀ path s, explore path s = q.generation explore path s) ↔ explore = q.shortenFrom := by
  constructor
  · intro hexplore
    -- By the length of the path: each generation explores shorter ones only.
    have hlength : ∀ n path s, path.length = n → explore path s = q.shortenFrom path s := by
      intro n
      induction n with
      | zero =>
        intro path s hlength
        rw [hexplore, shortenFrom_eq]
        exact generation_congr (fun shorter s hshorter => by omega) s
      | succ n ih =>
        intro path s hlength
        rw [hexplore, shortenFrom_eq]
        exact generation_congr (fun shorter s hshorter => ih shorter s (by omega)) s
    exact funext fun path => funext fun s => hlength _ path s rfl
  · rintro rfl
    exact shortenFrom_eq

/-! ## 2. States that outlive a failure -/

/-- Where a shortening ends: its state, and the failure that has ended it, if any. -/
structure Halt where
  state : Shortening
  failure : Option Failure := none

/-- What is left of it for those who asked for all variants. -/
def Halt.result (h : Halt) : Except Failure Shortening :=
  match h.failure with
  | none => .ok h.state
  | some f => .error f

/-- `leaveOut`, with the state in which it ends. -/
def exploreRow (q : Quest) (deeper : Path → Shortening → Inquiry Halt) (path : Path) :
    (count i : Nat) → Shortening → Inquiry Halt
  | 0, _, s => return ⟨s, none⟩
  | count + 1, i, s =>
    if q.settings.maxTries ≤ s.attempts then .tell (.outOfTries s.attempts) (return ⟨s, none⟩)
    else
      let shorter : Path := path.eraseIdx i
      if s.visited.contains shorter.render then return ⟨s.tried, none⟩
      else do
        match ← (q.accepts shorter).run with
        | .error f => return ⟨s.tried, some f⟩
        | .ok false => exploreRow q deeper path count (i + 1) s.tried
        | .ok true =>
          let below ← .tell (.shortened shorter.render) (deeper shorter (s.tried.kept shorter))
          match below.failure with
          | some _ => return below
          | none => exploreRow q deeper path count (i + 1) below.state

def exploreWithin (q : Quest) : (depth : Nat) → Path → Shortening → Inquiry Halt
  | 0, _, s => return ⟨s, none⟩
  | depth + 1, path, s =>
    if path.length ≤ 2 || path.length ≤ q.settings.optimizedMinLength then return ⟨s, none⟩
    else q.exploreRow (q.exploreWithin depth) path (path.length - 2) 1 s

/-- The shortening of a path, with the state in which it ends. -/
def explore (q : Quest) (path : Path) : Inquiry Halt := q.exploreWithin path.length path {}

theorem run_leaveOut {deeper : Path → Shortening → Attempt Shortening}
    {deeper' : Path → Shortening → Inquiry Halt}
    (hdeeper : ∀ path s, (deeper path s).run = Halt.result <$> deeper' path s) (path : Path)
    (count i : Nat) (s : Shortening) :
    (q.leaveOut deeper path count i s).run = Halt.result <$>
      q.exploreRow deeper' path count i s := by
  induction count generalizing i s with
  | zero => rfl
  | succ count ih =>
    rw [leaveOut, exploreRow]
    split
    · rfl
    · dsimp only
      split
      · rfl
      · rw [ExceptT.run_bind, map_bind]
        apply bind_congr
        intro b
        cases b with
        | error f => rfl
        | ok b =>
          cases b with
          | false => exact ih (i + 1) s.tried
          | true =>
            -- The variant is explored first; a failure there ends the row as well.
            show Inquiry.tell _ (deeper (path.eraseIdx i) (s.tried.kept (path.eraseIdx i)) >>=
              fun s =>
                q.leaveOut deeper path count (i + 1) s).run =
              Inquiry.tell _
              (Halt.result <$> (deeper' (path.eraseIdx i) (s.tried.kept (path.eraseIdx i)) >>= _))
            rw [ExceptT.run_bind, hdeeper, bind_map_left, map_bind]
            congr 1
            apply bind_congr
            rintro ⟨below, failure⟩
            cases failure with
            | some f => rfl
            | none => exact ih (i + 1) below

theorem run_shortenWithin (depth : Nat) (path : Path) (s : Shortening) :
    (q.shortenWithin depth path s).run = Halt.result <$> q.exploreWithin depth path s := by
  induction depth generalizing path s with
  | zero => rfl
  | succ depth ih =>
    rw [shortenWithin, exploreWithin]
    split
    · rfl
    · exact run_leaveOut ih path _ _ s

theorem run_shorten (path : Path) : (q.shorten path).run = Halt.result <$> q.explore path :=
  run_shortenWithin path.length path {}

/-! ## 3. What is kept -/

/-- The selector of the path was answered with one element, and the next query with the target; both
after `n` queries at least. -/
def Answered (q : Quest) (n : Nat) (r : Progress σ) (path : Path) : Prop :=
  ∃ i x, n ≤ i ∧ r.transcript.exchanges[i]? = some (.all path.render q.scope (.ok [x])) ∧
    r.transcript.exchanges[i + 1]? = some (.one path.render q.scope (.ok (some q.target)))

/-- What is known of the state of a shortening that began with `path` after `n` queries. -/
structure Explored (q : Quest) (path : Path) (n : Nat) (r : Progress σ) (s : Shortening) :
    Prop where
  pared : ∀ known ∈ s.found.toList, path.Pared known
  shorter : ∀ known ∈ s.found.toList, known.length < path.length
  long : ∀ known ∈ s.found.toList, max 2 q.settings.optimizedMinLength ≤ known.length
  answered : ∀ known ∈ s.found.toList, q.Answered n r known
  distinct : (s.found.toList.map Path.render).Nodup
  visited : s.visited = (s.found.toList.map Path.render).reverse
  since : n ≤ r.calls

variable {path shorter : Path} {n : Nat} {r : Progress σ} {s : Shortening}

theorem getElem?_exchange {i : Nat} {e : Exchange} (h : r.transcript.exchanges[i]? = some e)
    (state : σ) (last : Exchange) : (r.exchange state last).transcript.exchanges[i]? = some e := by
  have hlt := (Array.getElem?_eq_some_iff.1 h).1
  show (r.transcript.exchanges.push last)[i]? = some e
  rw [Array.getElem?_push_lt hlt, ← Array.getElem?_eq_getElem, h]

theorem Answered.exchange (h : q.Answered n r path) (state : σ) (e : Exchange) :
    q.Answered n (r.exchange state e) path := by
  obtain ⟨i, x, hi, hall, hone⟩ := h
  exact ⟨i, x, hi, getElem?_exchange hall state e, getElem?_exchange hone state e⟩

/-- A path is answered by two queries, one right behind the other. -/
theorem answered_of_back {x : NodeId} (hn : n < r.calls)
    (h : r.transcript.exchanges.back? = some (.all path.render q.scope (.ok [x]))) (state : σ) :
    q.Answered n (r.exchange state (.one path.render q.scope (.ok (some q.target)))) path := by
  obtain ⟨i, hi⟩ := Nat.exists_eq_add_of_le' (Nat.zero_lt_of_lt hn)
  rw [Array.back?_eq_getElem?, show r.transcript.exchanges.size = i + 1 from hi,
    Nat.add_sub_cancel] at h
  refine ⟨i, x, by omega, getElem?_exchange h state _, ?_⟩
  rw [← hi]
  exact Array.getElem?_push_size

namespace Explored

theorem start (q : Quest) (path : Path) (r : Progress σ) : q.Explored path r.calls r {} where
  pared := fun _ h => by cases h
  shorter := fun _ h => by cases h
  long := fun _ h => by cases h
  answered := fun _ h => by cases h
  distinct := List.nodup_nil
  visited := rfl
  since := Nat.le_refl _

theorem exchange (h : q.Explored path n r s) (state : σ) (e : Exchange) :
    q.Explored path n (r.exchange state e) s where
  pared := h.pared
  shorter := h.shorter
  long := h.long
  answered := fun known hknown => (h.answered known hknown).exchange state e
  distinct := h.distinct
  visited := h.visited
  since := by
    have hsize : (r.exchange state e).calls = r.calls + 1 := Array.size_push e
    have := h.since
    omega

theorem tell (h : q.Explored path n r s) (event : TraceEvent) :
    q.Explored path n (r.tell event) s :=
  ⟨h.pared, h.shorter, h.long, h.answered, h.distinct, h.visited, h.since⟩

theorem tried (h : q.Explored path n r s) : q.Explored path n r s.tried :=
  ⟨h.pared, h.shorter, h.long, h.answered, h.distinct, h.visited, h.since⟩

theorem toList_kept (s : Shortening) (path : Path) :
    (s.kept path).found.toList = s.found.toList ++ [path] :=
  Array.toList_push

theorem kept (h : q.Explored path n r s) (hpared : path.Pared shorter)
    (hshorter : shorter.length < path.length)
    (hlong : max 2 q.settings.optimizedMinLength ≤ shorter.length)
    (hanswered : q.Answered n r shorter) (hnew : shorter.render ∉ s.visited) :
    q.Explored path n r (s.kept shorter) := by
  have hmem : ∀ {good : Path → Prop}, (∀ known ∈ s.found.toList, good known) → good shorter →
      ∀ known ∈ (s.kept shorter).found.toList, good known := by
    intro good hold hgood known hknown
    rcases Shortening.mem_found_kept.1 hknown with hknown | rfl
    · exact hold known hknown
    · exact hgood
  refine ⟨hmem h.pared hpared, hmem h.shorter hshorter, hmem h.long hlong,
    hmem h.answered hanswered, ?_, ?_, h.since⟩
  · rw [toList_kept, List.map_append, List.map_singleton, List.nodup_append]
    refine ⟨h.distinct, List.nodup_singleton _, ?_⟩
    rintro selector hselector _ hlast rfl
    rw [List.mem_singleton.1 hlast] at hselector
    exact hnew (h.visited ▸ List.mem_reverse.2 hselector)
  · rw [toList_kept, List.map_append, List.map_singleton, List.reverse_append, ← h.visited]
    rfl

end Explored

/-! ## 4. Runs -/

variable {p : Provider σ}

/-- A path that is accepted was answered just now. -/
theorem ends_accepts (q : Quest) (p : Provider σ) (path shorter : Path) (n : Nat) (s : Shortening) :
    Ends p (fun r => q.Explored path n r s) (q.accepts shorter)
      (fun b r => q.Explored path n r s ∧ (b = true → q.Answered n r shorter))
        (fun _ r => q.Explored path n r s) := by
  have hall : Ends p (fun r => q.Explored path n r s) (all shorter.render q.scope)
      (fun ids r => q.Explored path n r s ∧ n < r.calls ∧
        r.transcript.exchanges.back? = some (.all shorter.render q.scope (.ok ids)))
      (fun _ r => q.Explored path n r s) := by
    apply ends_all
    · intro r hr ids state _
      have hsize : (r.exchange state (.all shorter.render q.scope (.ok ids))).calls = r.calls + 1 :=
        Array.size_push _
      exact ⟨hr.exchange state _, by have := hr.since; omega, Array.back?_push⟩
    · exact fun r hr e state _ => hr.exchange state _
  have hunique : Ends p (fun r => q.Explored path n r s) (q.isUnique shorter)
      (fun b r => q.Explored path n r s ∧ (b = true → ∃ x, n < r.calls ∧
        r.transcript.exchanges.back? = some (.all shorter.render q.scope (.ok [x]))))
      (fun _ r => q.Explored path n r s) := by
    apply hall.bind
    intro ids
    cases ids with
    | nil => exact ends_throw fun r hr => hr.1
    | cons x ids =>
      cases ids with
      | nil => exact ends_pure fun r hr => ⟨hr.1, fun _ => ⟨x, hr.2⟩⟩
      | cons y ids => exact ends_pure fun r hr => ⟨hr.1, fun h => by cases h⟩
  apply hunique.bind
  intro b
  cases b with
  | false => exact ends_pure fun r hr => ⟨hr.1, fun h => by cases h⟩
  | true =>
    have hone : Ends p
        (fun r => q.Explored path n r s ∧ (true = true → ∃ x, n < r.calls ∧
          r.transcript.exchanges.back? = some (.all shorter.render q.scope (.ok [x]))))
        (one shorter.render q.scope)
        (fun id r => q.Explored path n r s ∧ (id = some q.target → q.Answered n r shorter))
        (fun _ r => q.Explored path n r s) := by
      apply ends_one
      · rintro r ⟨hr, hlast⟩ id state _
        obtain ⟨x, hn, hlast⟩ := hlast rfl
        refine ⟨hr.exchange state _, ?_⟩
        rintro rfl
        exact answered_of_back hn hlast state
      · exact fun r hr e state _ => hr.1.exchange state _
    -- The answer to all is the last one when the query for one is asked.
    apply hone.bind
    intro id
    apply ends_pure
    rintro r ⟨hr, hid⟩
    exact ⟨hr, fun h => hid (beq_iff_eq.1 h)⟩

theorem run_bind_inquiry (p : Provider σ) (x : Inquiry α) (next : α → Inquiry β) (r : Progress σ) :
    Inquiry.run p (x >>= next) r = Inquiry.run p (next (Inquiry.run p x r).1)
      (Inquiry.run p x r).2 :=
  Inquiry.run_andThen p x next r

/-- The exploration of a path that is left of `start` keeps what is known of the state. -/
def Keeps (q : Quest) (p : Provider σ) (start : Path) (n : Nat)
    (explore : Path → Shortening → Inquiry Halt) : Prop :=
  ∀ path s r, start.Pared path → path.length ≤ start.length → q.Explored start n r s →
    q.Explored start n (Inquiry.run p (explore path s) r).2
    (Inquiry.run p (explore path s) r).1.state

variable {start : Path}

/-- One row: each path that is added was answered just before, and is shorter by one than the path
of the row. -/
theorem explored_exploreRow {deeper : Path → Shortening → Inquiry Halt}
    (hdeeper : q.Keeps p start n deeper) (hpared : start.Pared path)
    (hlength : path.length ≤ start.length) (hlong : q.Long path) {count i : Nat} (hi : 1 ≤ i)
    (hcount : i + count + 1 = path.length) (h : q.Explored start n r s) :
    q.Explored start n (Inquiry.run p (q.exploreRow deeper path count i s) r).2
      (Inquiry.run p (q.exploreRow deeper path count i s) r).1.state := by
  induction count generalizing i s r with
  | zero => exact h
  | succ count ih =>
    rw [exploreRow]
    split
    · exact h.tell _
    · dsimp only
      split
      · exact h.tried
      · next hnew =>
        have hshorter : start.Pared (path.eraseIdx i) :=
          hpared.trans (Path.pared_eraseIdx hi (by omega))
        have hone : (path.eraseIdx i).length + 1 = path.length := by
          rw [List.length_eraseIdx_of_lt (by omega)]
          omega
        have haccepts := ends_accepts q p start (path.eraseIdx i) n s.tried r h.tried
        rw [run_bind_inquiry]
        revert haccepts
        generalize Inquiry.run p (q.accepts (path.eraseIdx i)).run r = answered
        obtain ⟨result, r'⟩ := answered
        cases result with
        | error f => exact fun haccepts => haccepts
        | ok b =>
          cases b with
          | false => exact fun haccepts => ih (by omega) (by omega) haccepts.1
          | true =>
            -- The variant is added, and what is explored below it starts from there.
            rintro ⟨hr, hanswered⟩
            have hkept : q.Explored start n r' (s.tried.kept (path.eraseIdx i)) := by
              have htwo := hlong.1
              have hmin := hlong.2
              exact hr.kept hshorter (by omega) (by omega) (hanswered rfl) fun hmem =>
                hnew (List.contains_iff_mem.2 hmem)
            have hbelow := hdeeper (path.eraseIdx i) _ _ hshorter (by omega)
              (hkept.tell (.shortened (Path.render (path.eraseIdx i))))
            rw [← Inquiry.run] at hbelow
            dsimp only
            rw [run_bind_inquiry]
            revert hbelow
            generalize Inquiry.run p (.tell _ (deeper _ _)) r' = below
            obtain ⟨⟨state, failure⟩, r''⟩ := below
            intro hbelow
            cases failure with
            | some f => exact hbelow
            | none => exact ih (by omega) (by omega) hbelow

theorem keeps_exploreWithin (q : Quest) (p : Provider σ) (start : Path) (n depth : Nat) :
    q.Keeps p start n (q.exploreWithin depth) := by
  induction depth with
  | zero => exact fun path s r _ _ h => h
  | succ depth ih =>
    intro path s r hpared hlength h
    rw [exploreWithin]
    split
    · exact h
    · next hlong =>
      rw [Bool.or_eq_true, decide_eq_true_eq, decide_eq_true_eq] at hlong
      have hlong : q.Long path := by rw [Long]; omega
      exact explored_exploreRow ih hpared hlength hlong (Nat.le_refl 1)
        (by have := hlong.1; omega) h

theorem explored_explore (q : Quest) (p : Provider σ) (path : Path) (r : Progress σ) :
    q.Explored path r.calls (Inquiry.run p (q.explore path) r).2
      (Inquiry.run p (q.explore path) r).1.state :=
  keeps_exploreWithin q p path r.calls path.length path {} r (.refl path) (Nat.le_refl _)
    (.start q path r)

theorem run_shorten_eq (q : Quest) (p : Provider σ) (path : Path) (r : Progress σ) :
    Inquiry.run p (q.shorten path).run r =
      ((Inquiry.run p (q.explore path) r).1.result, (Inquiry.run p (q.explore path) r).2) := by
  rw [run_shorten, map_eq_pure_bind, run_bind_inquiry]
  rfl

end Quest

/-! ## 5. The best variant -/

/-- The best of a path and its variants: none is cheaper, and if none costs less than the path, it
is the path. -/
structure Path.Best (path : Path) (found : List Path) (best : Path) : Prop where
  mem : best ∈ path :: found
  least : ∀ known ∈ path :: found, best.cost ≤ known.cost
  tie : path.cost ≤ best.cost → best = path

theorem Path.exists_sortByCost_cons (path : Path) (found : List Path) :
    ∃ best rest, sortByCost (path :: found) = best :: rest ∧ path.Best found best := by
  obtain ⟨before, after, hsorted, -, hbefore⟩ :=
    List.mergeSort_cons (Cost.decide_le_trans cost) (Cost.decide_le_total cost)
    path found
  -- The path is the first of the row, so nothing overtakes it but what is strictly cheaper.
  cases before with
  | nil =>
    obtain ⟨hmem, hleast⟩ := cost_le_of_sortByCost hsorted
    exact ⟨path, after, hsorted, hmem, hleast, fun _ => rfl⟩
  | cons best before =>
    obtain ⟨hmem, hleast⟩ := cost_le_of_sortByCost hsorted
    refine ⟨best, _, hsorted, hmem, hleast, fun htie => ?_⟩
    have hless := hbefore best (.head _)
    rw [decide_eq_true htie] at hless
    cases hless

namespace Quest

theorem run_bestVariant_ok {q : Quest} {p : Provider σ} {path : Path} {r : Progress σ}
    {s : Shortening} {r' : Progress σ} (h : Inquiry.run p (q.shorten path).run r = (.ok s, r')) :
    ∃ best, path.Best s.found.toList best ∧ Inquiry.run p (q.bestVariant path).run r =
      (.ok best.render, r'.tell (.finished s.found.size s.attempts)) := by
  obtain ⟨best, rest, hsorted, hbest⟩ := path.exists_sortByCost_cons s.found.toList
  refine ⟨best, hbest, ?_⟩
  rw [bestVariant, run_bind, h]
  dsimp only
  rw [hsorted]
  rfl

theorem run_bestVariant_error {q : Quest} {p : Provider σ} {path : Path} {r : Progress σ}
    {f : Failure} {r' : Progress σ} (h : Inquiry.run p (q.shorten path).run r = (.error f, r')) :
    Inquiry.run p (q.bestVariant path).run r = (.error f, r') := by
  rw [bestVariant, run_bind, h]

end Quest

open Quest

/-- A selector that is found is that of the document element, or that of the best variant of a path
from the climb. -/
theorem bestVariant_of_findSelector {t : Document} {s : Settings} {target : NodeId} {p : Provider σ}
    {r : Progress σ} {selector : String}
    (h : (Inquiry.run p (findSelector t s target).run r).1 = .ok selector) :
    let q := aim t s target
    let climbed := Inquiry.run p (q.uniquePath .all).run r
    selector = "html" ∧ (∃ e, t.element? target = some e ∧ sameLetters e.tag "html" = true) ∨
      ∃ path, climbed.1 = .ok (some path) ∧
      (Inquiry.run p (q.bestVariant path).run climbed.2).1 = .ok selector := by
  intro q climbed
  rw [findSelector] at h
  split at h
  · cases h
  · next e he =>
    split at h
    · next hhtml =>
      cases h
      exact .inl ⟨rfl, e, he, hhtml⟩
    · right
      dsimp only at h
      split at h
      · rw [Quest.selector, run_bind] at h
        cases hclimbed : Inquiry.run p ((aim t s target).uniquePath .all).run r with
        | mk result r' =>
          rw [hclimbed] at h
          rw [show climbed = (result, r') from hclimbed]
          cases result with
          | error f => cases h
          | ok found =>
            cases found with
            | none => cases h
            | some path => exact ⟨path, rfl, h⟩
      · cases h

/-- **What a shortening finds are variants of its path that were answered**, whoever answers and
however it ends. -/
theorem shorten_explored (t : Document) (s : Settings) (target : NodeId) (path : Path)
    (p : Provider σ) (r : Progress σ) :
    let q := aim t s target
    let run := Inquiry.run p (q.explore path) r
    let climbed := Inquiry.run p (q.uniquePath .all).run r
    q.Explored path r.calls run.2 run.1.state ∧
    (q.shorten path = q.shortenFrom path {} ∧
      Inquiry.run p (q.shorten path).run r = (run.1.result, run.2)) ∧
    (∀ explore, (∀ path s, explore path s = q.generation explore path s) ↔
      explore = q.shortenFrom) ∧
    (∀ selector, (Inquiry.run p (findSelector t s target).run r).1 = .ok selector →
      selector = "html" ∧ (∃ e, t.element? target = some e ∧ sameLetters e.tag "html" = true) ∨
      ∃ start found best, climbed.1 = .ok (some start) ∧
        (Inquiry.run p (q.shorten start).run climbed.2).1 = .ok found ∧
        start.Best found.found.toList best ∧ selector = best.render) := by
  intro q run climbed
  refine ⟨explored_explore q p path r, ⟨rfl, run_shorten_eq q p path r⟩,
    fun explore => eq_shortenFrom_iff, ?_⟩
  intro selector hselector
  refine (bestVariant_of_findSelector hselector).imp_right ?_
  rintro ⟨start, hstart, hbest⟩
  cases hshorten : Inquiry.run p (q.shorten start).run climbed.2 with
  | mk result r' =>
    cases result with
    | error f =>
      rw [run_bestVariant_error hshorten] at hbest
      cases hbest
    | ok found =>
      obtain ⟨best, hleast, hrun⟩ := run_bestVariant_ok hshorten
      rw [hrun] at hbest
      cases hbest
      exact ⟨start, found, best, hstart, by rw [hshorten], hleast, rfl⟩

end UniqueSelector
