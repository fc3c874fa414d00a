import UniqueSelector.Proofs.Budget
import UniqueSelector.Proofs.InternalFailure
import UniqueSelector.Proofs.Variants

/-!
# Restored — levels that are left out and put back

A shortening asks for nothing but the text of its path with inner candidates left out. Once it has
been read, what is left of the path is what is left of the selector, so whatever the provider of the
answers says, it fits the target if the whole path does, and if it leads to one node it goes on
doing so when some of the candidates are put back. The text may tell otherwise, where a number takes
a blank; what it means does not.
-/

namespace UniqueSelector

open Selector Attempt Progress

/-! ## 1. Inner candidates -/

namespace Path

variable {path shorter : Path}

theorem Pared.exists_cons (h : Pared path shorter) (hne : path ≠ []) :
    ∃ target rest rest', path = target :: rest ∧ shorter = target :: rest' ∧
      rest'.Sublist rest := by
  obtain ⟨target, rest, rfl⟩ := List.exists_cons_of_ne_nil hne
  obtain ⟨rest', rfl⟩ := List.head?_eq_some_iff.1 h.head
  exact ⟨target, rest, rest', rfl, rfl, List.cons_sublist_cons.1 h.sublist⟩

theorem intended_of_pared (hne : path ≠ [])
    (hclimbs : path.Pairwise fun nearer farther => nearer.level < farther.level)
    (h : Pared path shorter) :
    shorter.intended = path.intended.without (path.omitted shorter) := by
  obtain ⟨target, rest, rest', rfl, rfl, hsub⟩ := h.exists_cons hne
  exact intended_of_sublist hsub hclimbs

/-- The outermost candidate stays. -/
theorem Pared.omitted_subset_inner (h : Pared path shorter) :
    path.omitted shorter ⊆ path.intended.inner := by
  intro i hi
  obtain ⟨-, hany⟩ := Finset.mem_filter.1 hi
  obtain ⟨c, hc, -⟩ := (Option.any_eq_true _ _).1 hany
  have hlength : path.intended.chain.length + 1 = path.length := by
    cases path with
    | nil => cases hc
    | cons target rest => rw [intended, length_chain, List.length_cons]
  have hlt := (List.getElem?_eq_some_iff.1 hc).1
  rw [Selector.Complex.inner, Finset.mem_range]
  by_contra houtermost
  -- The candidate at the last place is the last one of what is left, too.
  have hplace : i + 1 = path.length - 1 := by omega
  have hlast : shorter.getLast? = some c := by rw [h.last, List.getLast?_eq_getElem?, ← hplace, hc]
  exact (mem_omitted hc).1 hi (List.mem_of_getLast? hlast)

end Path

/-! ## 2. What is asked -/

namespace Quest

variable {q : Quest} {p : Provider σ}

/-- Since `n` queries, only the texts of some paths were asked for. -/
def Asks (asked : Path → Prop) (n : Nat) (r : Progress σ) : Prop :=
  ∀ i e, n ≤ i → r.transcript.exchanges[i]? = some e → ∃ path, asked path ∧ e.selector = path.render

theorem Asks.start (asked : Path → Prop) (r : Progress σ) : Asks asked r.calls r := by
  intro i e hi he
  exact absurd (Array.getElem?_eq_some_iff.1 he).1 (Nat.not_lt.2 hi)

theorem Asks.exchange {asked : Path → Prop} {n : Nat} {r : Progress σ} (h : Asks asked n r)
    {path : Path} (hpath : asked path) {last : Exchange} (hlast : last.selector = path.render)
    (state : σ) :
    Asks asked n (r.exchange state last) := by
  intro i e hi he
  have he : (r.transcript.exchanges.push last)[i]? = some e := he
  rw [Array.getElem?_push] at he
  split at he
  · cases he
    exact ⟨path, hpath, hlast⟩
  · exact h i e hi he

/-- Nobody's answers make a search ask for other paths. -/
theorem behaves_asks (q : Quest) (p : Provider σ) (asked : Path → Prop) (n : Nat) :
    q.Behaves p (Asks asked n) asked (fun _ => True) (fun _ => True) fun _ => Asks asked n where
  isUnique path hpath := by
    have hall : Ends p (Asks asked n) (all path.render q.scope) (fun _ => Asks asked n)
        fun _ => Asks asked n :=
      ends_all (fun _ hr _ state _ => hr.exchange hpath rfl state)
        fun _ hr _ state _ => hr.exchange hpath rfl state
    apply hall.bind
    intro ids
    match ids with
    | [] => exact ends_throw fun _ hr => hr
    | [_] => exact ends_pure fun _ hr => ⟨hr, fun _ => trivial⟩
    | _ :: _ :: _ => exact ends_pure fun _ hr => ⟨hr, fun _ => trivial⟩
  isSame path hpath _ := by
    have hone : Ends p (Asks asked n) (one path.render q.scope) (fun _ => Asks asked n)
        fun _ => Asks asked n :=
      ends_one (fun _ hr _ state _ => hr.exchange hpath rfl state)
        fun _ hr _ state _ => hr.exchange hpath rfl state
    exact hone.bind fun _ => ends_pure fun _ hr => ⟨hr, fun _ => trivial⟩
  tell _ _ hr := hr
  notFound _ hr := hr

/-- A path of the climb is an own path without a gap, whoever answers. -/
theorem own_of_run_uniquePath (htarget : q.document.isElement q.target = true) {r : Progress σ}
    {path : Path} (h : (Inquiry.run p (q.uniquePath .all).run r).1 = .ok (some path)) :
    q.Own path ∧ Gapless path := by
  -- Any path may be asked for here; what counts is where the paths come from.
  have hasked : ∀ path, q.Own path ∧ Gapless path → True := fun _ _ => trivial
  have hends := (q.behaves_asks p (fun _ => True) r.calls).climbInTurn hasked
    (fun mode n path hne hpath => own_of_mem_combinations htarget hne hpath)
    (Breadth.andNarrower .all) r (Asks.start _ r)
  change Ended _ _ (Inquiry.run p (q.uniquePath .all).run r).1 _ at hends
  rw [h] at hends
  exact (hends.2 path rfl).1

theorem ends_shorten (q : Quest) (p : Provider σ) (path : Path) (n : Nat) :
    Ends p (Asks path.Pared n) (q.shorten path)
      (fun run r => Asks path.Pared n r ∧ ∀ shorter ∈ run.found, path.Pared shorter) fun _ =>
        Asks path.Pared n := by
  have hshortens : Behaves.Shortens path.Pared :=
    fun shorter i h hfirst hlast => h.trans (Path.pared_eraseIdx hfirst hlast)
  have hends := (q.behaves_asks p path.Pared n).shortenWithin hshortens path.length
    (.refl path) (s := {}) fun shorter hmem => by simp at hmem
  exact hends.mono (fun _ hr => hr) fun _ _ hr => ⟨hr.1, fun shorter hmem => (hr.2 shorter hmem).1⟩

/-! ## 3. What is read -/

/-- What the shortening of a path does to the selector `s` that the path is read as. -/
structure Loosens (q : Quest) (p : Provider σ) (path : Path) (s : Selector.Complex) : Prop where
  upward : s.Upward
  /-- Whatever is asked for is the path with inner candidates left out. -/
  asked : ∀ r i e, r.calls ≤ i →
    (Inquiry.run p (q.shorten path).run r).2.transcript.exchanges[i]? = some e →
    ∃ shorter, path.Pared shorter ∧ e.selector = shorter.render
  /-- So is whatever is found. -/
  found : ∀ r run, (Inquiry.run p (q.shorten path).run r).1 = .ok run →
    ∀ shorter ∈ run.found, path.Pared shorter
  /-- What is left of the path is what is left of the selector; if no joint is lost, its text is
  read so. -/
  parsed : ∀ shorter, path.Pared shorter → path.omitted shorter ⊆ s.inner ∧
    shorter.intended = s.without (path.omitted shorter) ∧
    (shorter.Separated → parse shorter.render = .ok [shorter.intended])
  /-- The whole selector fits the target, U+0000 apart, which is read as another character. -/
  whole : q.document.NullFree → s.matches q.document q.target = true
  /-- If it does, so does what is left. -/
  target : s.matches q.document q.target = true → ∀ shorter, path.Pared shorter →
    Complex.matches shorter.intended q.document q.target = true
  /-- If one node alone fits what is left, it alone fits when candidates are put back. -/
  unique : s.answers q.document q.scope ≠ [] →
    ∀ longer shorter x, path.Pared longer → longer.Pared shorter →
    Complex.answers shorter.intended q.document q.scope = [x] →
    Complex.answers longer.intended q.document q.scope = [x]

section own

variable {path shorter : Path} {l : Selectors} (hown : q.Own path) (hgapless : Gapless path)
  (hparse : parse path.render = .ok l)
include hown

theorem Own.ne_nil : path ≠ [] := by
  obtain ⟨target, rest, rfl, -⟩ := hown.exists_cons
  exact List.cons_ne_nil _ _

theorem Own.intended_of_pared (hpared : path.Pared shorter) :
    shorter.intended = path.intended.without (path.omitted shorter) :=
  Path.intended_of_pared hown.ne_nil hown.climbs hpared

include hgapless hparse

/-- What is left of a path that was read is read as it is meant if no joint is lost. -/
theorem Own.parse_render_of_pared (hpared : path.Pared shorter) (hseparated : shorter.Separated) :
    parse shorter.render = .ok [shorter.intended] := by
  have hlegible := hown.legible_of_parse hgapless hparse
  obtain ⟨target, rest, rest', rfl, rfl, -⟩ := hpared.exists_cons hown.ne_nil
  exact Path.parse_render_of_separated (fun c hc => hlegible c (hpared.sublist.subset hc))
    hseparated

theorem Own.eq_of_parse : l = [path.intended] := by
  have hread :=
    hown.parse_render_of_pared hgapless hparse (.refl path) (separated_of_gapless hgapless)
  rw [hparse] at hread
  injection hread

theorem Own.loosens (hwell : q.document.WellFormed) (p : Provider σ) :
    q.Loosens p path path.intended where
  upward := path.upward_intended
  asked r i e hi he := by
    have hends := ends_shorten q p path r.calls r (Asks.start _ r)
    exact hends.elim (fun _ hr => hr.1) (fun _ hr => hr) i e hi he
  found r run hrun := by
    have hends := ends_shorten q p path r.calls r (Asks.start _ r)
    rw [hrun] at hends
    exact hends.2
  parsed shorter hpared :=
    ⟨hpared.omitted_subset_inner, hown.intended_of_pared hpared,
      hown.parse_render_of_pared hgapless hparse hpared⟩
  whole hnull := by
    have hmatches := hown.matches_of_parse hwell hnull hgapless hparse
    rw [hown.eq_of_parse hgapless hparse, Selectors.matches, List.any_cons, List.any_nil,
      Bool.or_false] at hmatches
    exact hmatches
  target htarget shorter hpared := by
    rw [hown.intended_of_pared hpared]
    exact Complex.matches_without_of_matches hwell path.upward_intended _ htarget
  unique hfits longer shorter x hlonger hshorter hx := by
    -- What is put back is left out no more.
    have hsub := path.omitted_subset hshorter.sublist.subset
    rw [hown.intended_of_pared (hlonger.trans hshorter)] at hx
    rw [hown.intended_of_pared hlonger]
    exact Complex.answers_without hwell path.upward_intended hsub hfits hx

end own

end Quest

/-- **Leaving out a level only widens a selector.** In a chain that leads upward, a compound with
another one farther out may be left out, and so may any set of them; whatever fits with few of them
left out fits with more, and where one node alone fits with more left out, it alone fits with fewer.
So it is with each path that the climb comes to, once it has been read: all that its shortening asks
for and finds is a part of it, and what that means still fits the target. -/
theorem Document.without_widens {t : Document} (hwell : t.WellFormed) :
    (∀ s : Selector.Complex, s.Upward →
      (∀ near far k k' c c', s.chain = near ++ (k, c) :: (k', c') :: far →
        ∀ x, s.matches t x = true →
          Complex.matches ⟨s.subject, near ++ (.descendant, c') :: far⟩ t x = true) ∧
      ∀ few many : Finset Nat, few ⊆ many →
        (∀ x, (s.without few).matches t x = true → (s.without many).matches t x = true) ∧
        ∀ scope x, s.answers t scope ≠ [] → (s.without many).answers t scope = [x] →
          (s.without few).answers t scope = [x]) ∧
    ∀ (q : Quest) {σ : Type} (p : Provider σ) (r : Progress σ) (path : Path) (l : Selectors),
      q.document = t → t.isElement q.target = true →
      (Inquiry.run p (q.uniquePath .all).run r).1 = .ok (some path) → parse path.render = .ok l →
      ∃ s, l = [s] ∧ q.Loosens p path s := by
  constructor
  · intro s hupward
    refine ⟨fun near far k k' c c' hchain x hx => ?_,
      fun few many hsub => ⟨fun x hx => ?_, fun scope x hfits hx => ?_⟩⟩
    · rw [← Complex.without_singleton hchain]
      exact Complex.matches_without_of_matches hwell hupward _ hx
    · exact Complex.matches_without hwell hupward hsub hx
    · exact Complex.answers_without hwell hupward hsub hfits hx
  · rintro q σ p r path l rfl htarget hpath hparse
    obtain ⟨hown, hgapless⟩ := Quest.own_of_run_uniquePath htarget hpath
    exact ⟨path.intended, hown.eq_of_parse hgapless hparse, hown.loosens hgapless hparse hwell p⟩

/-- Two branches that are alike but for an id, which breaks off with a number when it is written. -/
def Markup.twins : String :=
  "<div id=\"é\"><p><b><i></i></b></p></div><div><p><b><i></i></b></p></div>"

/-- The first `i` is the only one below the id, with or without what is between them. The text
`#\E9 i:nth-child(1)` fits nothing; what it means fits all the same. -/
theorem Document.without_widens_twins :
    let t := Markup.parse Markup.twins
    let q := Quest.aim t { threshold := 1 } 6
    let first : Simple := .pseudo (.nthChild ⟨0, 1⟩)
    let s : Selector.Complex :=
      ⟨[.type "i", first],
        [(.child, [.type "b", first]), (.child, [.type "p", first]), (.child, [.id "é"])]⟩
    let path : Path :=
      [⟨"i:nth-child(1)", .finite false 24, 0⟩, ⟨"b:nth-child(1)", .finite false 24, 1⟩,
        ⟨"p:nth-child(1)", .finite false 24, 2⟩, ⟨"#\\E9", .finite false 0, 3⟩]
    (t.WellFormed ∧ s.Upward ∧ s.matches t 6 = true ∧ s.answers t root ≠ [] ∧
        (s.without {0, 1}).answers t root = [6] ∧ t.isElement q.target = true ∧
        (Inquiry.run (Provider.ofDocument t) (q.uniquePath .all).run ⟨(), {}⟩).1 = .ok (some path) ∧
        parse path.render = .ok [s]) ∧
      Complex.matches ⟨s.subject, [(.descendant, [.type "p", first]), (.child, [.id "é"])]⟩
      t 6 = true ∧
      (s.without {1}).answers t root = [6] ∧ q.Loosens (Provider.ofDocument t) path s := by
  intro t q first s path
  have hwell : t.WellFormed := (Markup.sound_parse (by decide)).wellFormed
  have hupward : s.Upward := by decide
  have hmatches : s.matches t 6 = true := by decide +kernel
  have hfits : s.answers t root ≠ [] := by decide +kernel
  have hunique : (s.without {0, 1}).answers t root = [6] := by decide +kernel
  have htarget : t.isElement q.target = true := by decide +kernel
  have hpath : (Inquiry.run (Provider.ofDocument t) (q.uniquePath .all).run ⟨(), {}⟩).1 =
      .ok (some path) := by
    decide +kernel
  have hparse : parse path.render = .ok [s] := by decide +kernel
  obtain ⟨hselectors, hpaths⟩ := without_widens hwell
  obtain ⟨hone, hsets⟩ := hselectors s hupward
  obtain ⟨s', hs', hloosens⟩ :=
    hpaths q (Provider.ofDocument t) ⟨(), {}⟩ path [s] rfl htarget hpath hparse
  have hsame : s' = s := (List.cons.inj hs').1.symm
  refine ⟨⟨hwell, hupward, hmatches, hfits, hunique, htarget, hpath, hparse⟩, ?_, ?_,
    hsame ▸ hloosens⟩
  · exact hone [] [(.child, [.id "é"])] .child .child _ _ rfl 6 hmatches
  · exact (hsets {1} {0, 1} (by decide)).2 root 6 hfits hunique

end UniqueSelector
