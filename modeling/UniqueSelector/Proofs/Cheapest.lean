import UniqueSelector.Proofs.Constructed
import UniqueSelector.Proofs.Shortenings

/-!
# Cheapest — how good the selector is among all that a path can be shortened to

Leaving out a candidate makes no path dearer, so the cheapest variants are found among those that
are tight: nothing more can be left out of them. The selector costs as much as a tight variant, and
no more than the whole path and what is left of it without one candidate. Since a row of tries ends
at a text that is known, not every tight variant is found; there may be a cheaper one as soon as
three candidates can be left out.
-/

namespace UniqueSelector

open Selector

namespace Quest

variable {q : Quest} {path best longer shorter : Path}

/-! ## 1. Tight variants -/

/-- The path itself or a variant of it. -/
def Left (q : Quest) (path shorter : Path) : Prop := shorter = path ∨ q.Variant path shorter

/-- Nothing more can be left out. -/
structure Tight (q : Quest) (path tight : Path) : Prop where
  left : q.Left path tight
  least : ∀ shorter, q.Variant path shorter → shorter.Sublist tight → shorter = tight

theorem Left.pared (h : q.Left path shorter) : path.Pared shorter := by
  rcases h with rfl | hvariant
  · exact .refl _
  · exact hvariant.toPared

/-- What is not tight has a variant of its own. -/
theorem Left.exists_variant (h : q.Left path longer) (hloose : ¬q.Tight path longer) :
    ∃ shorter, q.Variant longer shorter ∧ shorter ≠ longer := by
  have hmore : ∃ shorter, q.Variant path shorter ∧ shorter.Sublist longer ∧ shorter ≠ longer := by
    by_contra hnone
    exact hloose ⟨h,
      fun shorter hvariant hsub => by_contra fun hne => hnone ⟨shorter, hvariant, hsub, hne⟩⟩
  obtain ⟨shorter, hvariant, hsub, hne⟩ := hmore
  have hpared : longer.Pared shorter :=
    ⟨hsub, hvariant.head.trans h.pared.head.symm, hvariant.last.trans h.pared.last.symm⟩
  exact ⟨shorter, ⟨hpared, hvariant.two_le, hvariant.long, hvariant.accepted⟩, hne⟩

/-- Of each variant something tight can be left. -/
theorem Left.exists_tight (h : q.Left path longer) :
    ∃ tight, q.Tight path tight ∧ tight.Sublist longer := by
  induction hlength : longer.length using Nat.strong_induction_on generalizing longer with
  | h n ih =>
    by_cases htight : q.Tight path longer
    · exact ⟨longer, htight, List.Sublist.refl longer⟩
    · obtain ⟨shorter, hvariant, hne⟩ := h.exists_variant htight
      have hlt : shorter.length < n := hlength ▸ Path.length_lt_of_sublist hvariant.sublist hne
      obtain ⟨tight, htight, hsub⟩ := ih _ hlt (.inr (hvariant.of_pared h.pared)) rfl
      exact ⟨tight, htight, hsub.trans hvariant.sublist⟩

/-- What is guaranteed of the path that is written down in the end, if no blank can be lost. -/
structure Cheapest (q : Quest) (path best : Path) : Prop where
  /-- It costs no more than what is left without one candidate. -/
  single : ∀ shorter, q.Variant path shorter → shorter.length + 1 = path.length →
    best.cost ≤ shorter.cost
  /-- It costs as much as something of which nothing more can be left out. -/
  tight : ∃ tight, q.Tight path tight ∧ tight.cost = best.cost
  /-- It is the cheapest of all if two candidates can be left out at most, or if it makes no
  difference which are. -/
  least : (path.length ≤ 4 ∨ ∀ tight tight', q.Tight path tight → q.Tight path tight' →
      tight.cost = tight'.cost) →
    ∀ shorter, q.Variant path shorter → best.cost ≤ shorter.cost

/-! ## 2. What the shortening leaves to choose from -/

section shorten

variable {run : Shortening} (hwell : q.document.WellFormed) (hlone : q.Lone path)
  (hsturdy : path.Sturdy) (hrun : q.document.settle (q.shorten path) = .ok run)
  (htries : run.attempts < q.settings.maxTries)
include hrun htries

theorem left_of_mem (hmem : longer ∈ path :: run.found.toList) : q.Left path longer :=
  (List.mem_cons.1 hmem).imp_right fun hfound => (variant_of_mem_found hrun htries hfound).1

theorem workedOff_of_mem (hmem : longer ∈ path :: run.found.toList) : q.WorkedOff run longer := by
  rcases List.mem_cons.1 hmem with rfl | hfound
  · exact workedOff_of_settle_shorten hrun htries
  · exact (variant_of_mem_found hrun htries hfound).2

include hwell hlone hsturdy

/-- If more can be left out of a path that is found, then something is found that costs as much as a
step from it. -/
theorem exists_known_step (hlonger : longer ∈ path :: run.found.toList)
    (hshorter : q.Variant longer shorter) (hne : shorter ≠ longer) :
    ∃ j, 1 ≤ j ∧ j + 1 < longer.length ∧ ∃ known ∈ run.found.toList,
      known.cost = Path.cost (longer.eraseIdx j) ∧ known.length + 1 = longer.length := by
  have hpared := (left_of_mem hrun htries hlonger).pared
  obtain ⟨i, hfirst, hlast, haccepted, -⟩ := hshorter.exists_eraseIdx hwell hsturdy hlone hpared hne
  have hlt := Path.length_lt_of_sublist hshorter.sublist hne
  have hlong : q.Long longer :=
    ⟨Nat.lt_of_le_of_lt hshorter.two_le hlt, Nat.lt_of_le_of_lt hshorter.long hlt⟩
  obtain ⟨j, hjfirst, hjlast, known, hknown, hrender⟩ :=
    workedOff_of_mem hrun htries hlonger hlong i hfirst hlast haccepted
  have hlength : (longer.eraseIdx j).length + 1 = longer.length := by
    rw [List.length_eraseIdx_of_lt (by omega)]
    omega
  -- Both are left of the same path, so the same text means the same to both.
  have hvariant := (variant_of_mem_found hrun htries hknown).1
  have hnonempty : known ≠ [] :=
    List.ne_nil_of_length_pos (Nat.lt_of_lt_of_le Nat.two_pos hvariant.two_le)
  have hnonempty' : longer.eraseIdx j ≠ [] := List.ne_nil_of_length_pos (by omega)
  have hsturdy₁ := hsturdy.sublist hvariant.sublist
  have hsturdy₂ := (hsturdy.sublist hpared.sublist).sublist (List.eraseIdx_sublist longer j)
  have hintended := hsturdy₁.intended_eq hsturdy₂ hnonempty hnonempty' hrender
  refine ⟨j, hjfirst, hjlast, known, hknown, ?_, ?_⟩
  · exact hsturdy₁.cost_eq_of_intended_eq hsturdy₂ hnonempty hnonempty' hintended
  · rw [Path.length_eq_of_intended_eq hnonempty hnonempty' hintended, hlength]

/-- For each path that is found, something tight is found that costs no more. -/
theorem exists_tight_found (hlonger : longer ∈ path :: run.found.toList) :
    ∃ tight ∈ path :: run.found.toList, q.Tight path tight ∧ tight.cost ≤ longer.cost := by
  induction hlength : longer.length using Nat.strong_induction_on generalizing longer with
  | h n ih =>
    by_cases htight : q.Tight path longer
    · exact ⟨longer, hlonger, htight, Cost.le_refl _⟩
    · have hleft := left_of_mem hrun htries hlonger
      obtain ⟨shorter, hvariant, hne⟩ := hleft.exists_variant htight
      obtain ⟨j, -, -, known, hknown, hcost, hshort⟩ :=
        exists_known_step hwell hlone hsturdy hrun htries hlonger hvariant hne
      obtain ⟨tight, hmem, htight, hle⟩ := ih _ (by omega) (.tail _ hknown) rfl
      refine ⟨tight, hmem, htight, Cost.le_trans hle ?_⟩
      rw [hcost]
      exact (hsturdy.sublist hleft.pared.sublist).cost_le (List.eraseIdx_sublist longer j)

/-- Of a path with two candidates between the first and the last, everything is found. -/
theorem exists_known_of_length_le_four (hgapless : Gapless path) (hlength : path.length ≤ 4)
    (hshorter : q.Variant path shorter) :
    ∃ known ∈ path :: run.found.toList, known.cost = shorter.cost := by
  by_cases hne : shorter = path
  · exact ⟨path, .head _, by rw [hne]⟩
  · obtain ⟨i, hfirst, hlast, haccepted, hvariant⟩ :=
      hshorter.exists_eraseIdx hwell hsturdy hlone (.refl path) hne
    have hstep : q.Variant path (path.eraseIdx i) := by
      have := Path.length_lt_of_sublist hshorter.sublist hne
      have := hshorter.two_le
      have := hshorter.long
      exact variant_eraseIdx ⟨by omega, by omega⟩ hfirst hlast haccepted
    have hfound := eraseIdx_mem_found hrun htries hsturdy hgapless hfirst hlast hstep
    by_cases hne' : shorter = path.eraseIdx i
    · exact ⟨shorter, .tail _ (hne' ▸ hfound), rfl⟩
    · -- One candidate is left between the two, so there is one way to go on.
      obtain ⟨j, hj, hj', known, hknown, hcost, -⟩ :=
        exists_known_step hwell hlone hsturdy hrun htries (.tail _ hfound) hvariant hne'
      obtain ⟨k, hk, hk', -, hrest⟩ :=
        hvariant.exists_eraseIdx hwell hsturdy hlone hstep.toPared hne'
      have hlength' : (path.eraseIdx i).length + 1 = path.length := by
        rw [List.length_eraseIdx_of_lt (by omega)]
        omega
      have hlast' : ((path.eraseIdx i).eraseIdx k).length = 2 := by
        rw [List.length_eraseIdx_of_lt (by omega)]
        omega
      have hsame : shorter = (path.eraseIdx i).eraseIdx k :=
        hrest.sublist.eq_of_length_le (by rw [hlast']; exact hrest.two_le)
      have hjk : j = k := by omega
      exact ⟨known, .tail _ hknown, by rw [hcost, hsame, hjk]⟩

/-- **The cheapest path that is found is as cheap as something tight**, and the cheapest of all
where the order of the tries plays no part. -/
theorem cheapest_of_sortByCost (hgapless : Gapless path) {rest : List Path}
    (hsorted : Path.sortByCost (path :: run.found.toList) = best :: rest) :
    q.Cheapest path best := by
  obtain ⟨hmem, hbest⟩ := Path.cost_le_of_sortByCost hsorted
  have htight : ∃ tight, q.Tight path tight ∧ tight.cost = best.cost := by
    obtain ⟨tight, hfound, htight, hle⟩ := exists_tight_found hwell hlone hsturdy hrun htries hmem
    exact ⟨tight, htight, Cost.le_antisymm hle (hbest tight hfound)⟩
  refine ⟨?_, htight, ?_⟩
  · intro shorter hvariant hlength
    have hne : shorter ≠ path := fun heq => by
      rw [heq] at hlength
      omega
    obtain ⟨i, hfirst, hlast, hpared⟩ := hvariant.toPared.exists_eraseIdx hsturdy.climbs hne
    have hsame : shorter = path.eraseIdx i := by
      apply hpared.sublist.eq_of_length
      rw [List.length_eraseIdx_of_lt (by omega)]
      omega
    subst hsame
    exact hbest _ (.tail _ (eraseIdx_mem_found hrun htries hsturdy hgapless hfirst hlast hvariant))
  · rintro (hlength | hequal) shorter hvariant
    · obtain ⟨known, hknown, hcost⟩ :=
        exists_known_of_length_le_four hwell hlone hsturdy hrun htries hgapless hlength hvariant
      exact hcost ▸ hbest known hknown
    · obtain ⟨tight, htight, hcost⟩ := htight
      obtain ⟨tight', htight', hsub⟩ := Left.exists_tight (.inr hvariant)
      rw [← hcost, hequal tight tight' htight htight']
      exact (hsturdy.sublist hvariant.sublist).cost_le hsub

end shorten

end Quest

/-! ## 3. The selector -/

section selector

variable {t : Document} {s : Settings} {target : NodeId} {e : Element} {path : Path}
  {run : Shortening} (htarget : t.element? target = some e)
  (hhtml : sameLetters e.tag "html" = false)
  (hbelow : t.isDescendantOf target (s.queryScope t) = true)
  (hpath : t.settle ((Quest.aim t s target).uniquePath .all) = .ok (some path))
  (hrun : t.settle ((Quest.aim t s target).shorten path) = .ok run)
include htarget hhtml hbelow hpath hrun

/-- What is written down is the first in the order of costs. -/
theorem Document.selectorFor_eq_best :
    ∃ best rest, Path.sortByCost (path :: run.found.toList) = best :: rest ∧
      t.selectorFor s target = .ok best.render := by
  obtain ⟨best, rest, hsorted, hbest⟩ := Quest.settle_bestVariant (q := Quest.aim t s target) hrun
  refine ⟨best, rest, hsorted, ?_⟩
  rw [selectorFor_eq htarget hhtml hbelow]
  exact (Quest.settle_selector_of_uniquePath (q := Quest.aim t s target) hpath).trans hbest

/-- **The selector is written from what is left of the path of the climb, and costs no more than
that.** If above the parent of the target no fragment of the path breaks off with a number, it is as
cheap as something tight, and no variant is cheaper if at most two candidates can be left out or if
all that is tight costs the same. -/
theorem Document.selectorFor_cheapest (hwell : t.WellFormed) (htries : run.attempts < s.maxTries) :
    let q := Quest.aim t s target
    ∃ best, t.selectorFor s target = .ok best.render ∧ q.Left path best ∧ best.cost ≤ path.cost ∧
      ((∀ c ∈ path, 2 ≤ c.level → breaksOff c.fragment.toList = false) →
        q.Cheapest path best) := by
  intro q
  have helement : t.isElement target = true := by rw [isElement, htarget]; rfl
  obtain ⟨best, rest, hsorted, hbest⟩ := selectorFor_eq_best htarget hhtml hbelow hpath hrun
  obtain ⟨hmem, hle⟩ := Path.cost_le_of_sortByCost hsorted
  refine ⟨best, hbest, Quest.left_of_mem hrun htries hmem, hle path (.head _), fun hclosed => ?_⟩
  obtain ⟨hlone, hgapless, hsturdy⟩ :=
    Quest.sturdy_of_settle_uniquePath (q := q) helement hpath hclosed
  exact Quest.cheapest_of_sortByCost hwell hlone hsturdy hrun htries hgapless hsorted

end selector

namespace Markup

/-- On the way to the first `i` three candidates lie between it and the `div`. -/
def detour : String :=
  "<div id=t><a><b><u class=x><i></i></u></b></a><q><i></i></q></div>" ++
    "<div><a><b><u class=x><i></i></u></b></a></div>"

/-- The path that is found for the first `i` if only one combination may be tried. -/
def detourPath : Path :=
  [⟨"i:nth-child(1)", .finite false 24, 0⟩, ⟨".x:nth-child(1)", .finite false 16, 1⟩,
    ⟨"b:nth-child(1)", .finite false 24, 2⟩, ⟨"a:nth-child(1)", .finite false 24, 3⟩,
    ⟨"#t", .finite false 0, 4⟩]

theorem target_detour :
    (parse detour).element? 7 = some { tag := "i" } ∧
      (parse detour).isDescendantOf 7
        (Settings.queryScope { threshold := 1 } (parse detour)) = true := by
  decide +kernel

theorem wellFormed_detour : (parse detour).WellFormed := by
  have hnull : '\x00' ∉ detour.toList := by decide +kernel
  exact (sound_parse hnull).wellFormed

theorem settle_uniquePath_detour :
    (parse detour).settle ((Quest.aim (parse detour) { threshold := 1 } 7).uniquePath .all) =
      .ok (some detourPath) := by
  decide +kernel

/-- Nine tries are made, and all that they find costs more than five. -/
theorem settle_shorten_detour :
    ∃ run,
      (parse detour).settle ((Quest.aim (parse detour) { threshold := 1 } 7).shorten detourPath) =
        .ok run ∧
      run.attempts = 9 ∧ ∀ known ∈ run.found.toList, ¬known.cost ≤ Cost.finite false 40 := by
  generalize hshorten :
    (parse detour).settle ((Quest.aim (parse detour) { threshold := 1 } 7).shorten detourPath) =
    ended
  have hrun : ended.map (fun run => decide (run.attempts = 9 ∧
      ∀ known ∈ run.found.toList, ¬known.cost ≤ Cost.finite false 40)) = .ok true := by
    rw [← hshorten]
    decide +kernel
  cases ended with
  | error f => cases hrun
  | ok run =>
    injection hrun with hrun
    exact ⟨run, rfl, of_decide_eq_true hrun⟩

theorem selectorFor_cheapest_detour :
    let t := parse detour
    let s : Settings := { threshold := 1 }
    let q := Quest.aim t s 7
    (t.WellFormed ∧ t.settle (q.uniquePath .all) = .ok (some detourPath) ∧
        ∃ run, t.settle (q.shorten detourPath) = .ok run ∧ run.attempts < s.maxTries) ∧
      ∃ best, t.selectorFor s 7 = .ok best.render ∧ q.Left detourPath best ∧
        best.cost ≤ detourPath.cost ∧ q.Cheapest detourPath best := by
  intro t s q
  obtain ⟨htarget, hbelow⟩ := target_detour
  obtain ⟨run, hrun, hattempts, -⟩ := settle_shorten_detour
  have htries : run.attempts < s.maxTries := by
    rw [hattempts]
    decide
  refine ⟨⟨wellFormed_detour, settle_uniquePath_detour, run, hrun, htries⟩, ?_⟩
  obtain ⟨best, hbest, hleft, hle, hcheapest⟩ :=
    Document.selectorFor_cheapest htarget (by decide) hbelow settle_uniquePath_detour hrun
      wellFormed_detour htries
  exact ⟨best, hbest, hleft, hle, hcheapest (by decide +kernel)⟩

/-- Without `b` and `a` the path is the cheapest, but it is never tried: once one of the two
is gone, the row leaves out `u` first, and that text is known already. What is written down is
dearer. -/
theorem selectorFor_detour :
    let t := parse detour
    let s : Settings := { threshold := 1 }
    let q := Quest.aim t s 7
    let cheaper : Path :=
      [⟨"i:nth-child(1)", .finite false 24, 0⟩, ⟨".x:nth-child(1)", .finite false 16, 1⟩,
        ⟨"#t", .finite false 0, 4⟩]
    (t.WellFormed ∧ t.element? 7 = some { tag := "i" } ∧
        t.settle (q.uniquePath .all) = .ok (some detourPath) ∧
        ∃ run, t.settle (q.shorten detourPath) = .ok run ∧ run.attempts < s.maxTries) ∧
      ∃ best, t.selectorFor s 7 = .ok best.render ∧ q.Left detourPath best ∧
        q.Variant detourPath cheaper ∧ ¬best.cost ≤ cheaper.cost := by
  intro t s q cheaper
  obtain ⟨htarget, hbelow⟩ := target_detour
  obtain ⟨run, hrun, hattempts, hdear⟩ := settle_shorten_detour
  have htries : run.attempts < s.maxTries := by
    rw [hattempts]
    decide
  refine ⟨⟨wellFormed_detour, htarget, settle_uniquePath_detour, run, hrun, htries⟩, ?_⟩
  obtain ⟨best, rest, hsorted, hbest⟩ :=
    Document.selectorFor_eq_best htarget (by decide) hbelow settle_uniquePath_detour hrun
  obtain ⟨hmem, -⟩ := Path.cost_le_of_sortByCost hsorted
  refine ⟨best, hbest, Quest.left_of_mem hrun htries hmem, ?_, ?_⟩
  · have hsub : cheaper.Sublist detourPath := by decide
    exact ⟨⟨hsub, rfl, rfl⟩, by decide, by decide, by unfold Quest.Accepted; decide +kernel⟩
  · have hcost : cheaper.cost = .finite false 40 := by decide +kernel
    rw [hcost]
    rcases List.mem_cons.1 hmem with rfl | hfound
    · decide +kernel
    · exact hdear best hfound

end Markup

end UniqueSelector
