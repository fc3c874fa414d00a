import UniqueSelector.Proofs.Costs
import UniqueSelector.Proofs.OwnPaths

/-!
# Prices — what a candidate costs can be told from what it means

The cost of a candidate goes by the kind of its feature and by whether it is counted, and both are
there again when the fragment is read. So paths that mean the same cost the same.
-/

namespace UniqueSelector

open Selector

/-! ## 1. Costs of fragments -/

/-- What a fragment costs: its feature, and counting if there is a place. -/
def Fragment.cost (f : Fragment) : Cost :=
  match f.place with
  | none => f.feature.cost
  | some _ => f.feature.cost + Cost.forCounting

/-- What a condition costs; only the place behind an empty tag is a condition of another kind. -/
def Selector.Simple.cost : Simple → Cost
  | .id _ => Cost.forId
  | .attribute _ => Cost.forAttribute
  | .class _ => Cost.forClass
  | .universal => Cost.forAny
  | _ => Cost.forTag

/-- What the conditions cost that a fragment is read as. -/
def Selector.Compound.cost : Compound → Cost
  | [] => Cost.zero
  | [.pseudo _] => Cost.forTag + Cost.forCounting
  | [s] => s.cost
  | s :: _ :: _ => s.cost + Cost.forCounting

theorem Fragment.cost_compound (f : Fragment) : Compound.cost f.compound = f.cost := by
  obtain ⟨feature, place⟩ := f
  cases place with
  | none => cases feature <;> rfl
  | some i => cases feature <;> rfl

/-- Small costs are added exactly. -/
theorem Cost.finite_add {m n : Nat} (h : m + n < 2 ^ precision) :
    Cost.finite false m + Cost.finite false n = Cost.finite false (m + n) := by
  rw [ofEighths_add, ofEighths_natCast, nearest_of_lt h,
    if_pos (Nat.lt_of_lt_of_le h precision_le_limit)]

theorem Feature.exists_cost (f : Feature) : ∃ n, n ≤ 24 ∧ f.cost = .finite false n := by
  cases f with
  | id name => exact ⟨0, by decide, rfl⟩
  | attr name value => exact ⟨4, by decide, rfl⟩
  | className name => exact ⟨8, by decide, rfl⟩
  | tag name => exact ⟨16, by decide, rfl⟩
  | any => exact ⟨24, by decide, rfl⟩

theorem Fragment.exists_cost (f : Fragment) : ∃ n, f.cost = .finite false n := by
  obtain ⟨feature, place⟩ := f
  obtain ⟨n, hn, hcost⟩ := feature.exists_cost
  cases place with
  | none => exact ⟨n, hcost⟩
  | some i =>
    have hsmall : n + 8 < 2 ^ Cost.precision := by
      rw [Cost.precision]
      omega
    exact ⟨n + 8, by rw [cost, hcost, Cost.forCounting, Cost.finite_add hsmall]⟩

/-! ## 2. Costs of candidates -/

/-- The candidate writes a fragment and costs as much; a tag may be no name. -/
def Candidate.Priced (c : Candidate) : Prop :=
  ∃ f : Fragment, (f.feature.Sound ∨ ∃ name, f.feature = .tag name) ∧ c.fragment.toList = f.text ∧
    c.cost = f.cost

theorem Level.priced_of_mem_build {e : Element} {index : Option Nat} {mode : Breadth}
    {distance : Nat} {s : Settings} {c : Candidate} (h : c ∈ build e index mode distance s) :
    c.Priced := by
  obtain ⟨b, hb, rfl⟩ := List.mem_map.1 h
  show b.Priced
  rcases mem_ofCandidates hb with hb | ⟨d, hd, i, -, rfl⟩
  · obtain ⟨f, -, hsound, htext, hcost⟩ := Element.has_of_mem_candidates hb
    exact ⟨⟨f, none⟩, hsound.imp_right fun h => ⟨_, h⟩,
      by rw [htext, Fragment.text, placeText, List.append_nil], hcost⟩
  · obtain ⟨f, -, hsound, htext, hcost⟩ := Element.has_of_mem_candidates hd
    refine ⟨⟨f, some i⟩, hsound.imp_right fun h => ⟨_, h⟩,
      by rw [Candidate.toList_nthChild, htext, Fragment.text], ?_⟩
    rw [Candidate.nthChild, hcost]
    rfl

namespace Candidate

variable {c : Candidate}

theorem Priced.exists_cost (h : c.Priced) : ∃ n, c.cost = .finite false n := by
  obtain ⟨f, -, -, hcost⟩ := h
  rw [hcost]
  exact f.exists_cost

/-- **If the fragment is read, the cost of the candidate is that of what is read.** -/
theorem Priced.cost_eq (h : c.Priced) (hlegible : c.Legible) :
    c.cost = Compound.cost c.compound := by
  obtain ⟨⟨feature, place⟩, hsound, htext, hcost⟩ := h
  by_cases hfeature : feature.Sound
  · rw [hcost, compound_eq (sound_of_legible hfeature htext hlegible) htext, Fragment.cost_compound]
  · -- The tag is no name, and then nothing but a place behind the empty tag is read.
    obtain ⟨name, rfl⟩ := hsound.resolve_left hfeature
    have hnot_dead := hlegible.not_dead
    rcases not_writable hfeature with rfl | rfl
    · have hempty : (Feature.tag "").text = [] := by decide
      rw [Fragment.text, hempty, List.nil_append] at htext
      cases place with
      | none =>
        have hopens := hlegible.reads.opens []
        rw [htext] at hopens
        obtain ⟨_, _, h, -⟩ := hopens
        cases h
      | some i =>
        have hi : i < 2 ^ 31 := by
          by_contra hlarge
          have hdead := dead_place hlarge []
          rw [List.append_nil, ← htext] at hdead
          exact hnot_dead hdead
        have hreads : Reads c.fragment.toList (placeSimples (some i)) := htext ▸ reads_placeText hi
        rw [hcost, compound, parse_of_reads hreads]
        rfl
    · have hhyphen : (Feature.tag "-").text = ['-'] := by decide
      rw [Fragment.text, hhyphen, List.singleton_append] at htext
      have hdead : Dead ('-' :: placeText place) := by
        apply dead_hyphen
        intro d hd
        cases place with
        | none => cases hd
        | some i =>
          cases hd
          exact .inr rfl
      exact absurd (htext ▸ hdead) hnot_dead

end Candidate

end UniqueSelector
