import FactorForest.Proofs.Graph.Coloring
import FactorForest.Proofs.Scope
import Mathlib.Data.List.Induction

set_option autoImplicit false

namespace FactorForest.Graph

inductive Change
  | vertex (x : Vertex)
  | edge (u v : Int) (e : Edge)
  | recolor
  | ask

/-- An edge that is refused leaves the graph as it was. -/
def change (g : Graph) : Change → Graph
  | .vertex x => g.addVertex x
  | .edge u v e =>
    match g.addEdge u v e with
    | .ok h => h
    | .error _ => g
  | .recolor => g.recolor
  | .ask => g.colored

def changes (g : Graph) (cs : List Change) : Graph := cs.foldl change g

/-- The graph that the changes make of the empty one. -/
def made (cs : List Change) : Graph := changes {} cs

/-- Whether the change computes colours of the vertices of `g`. -/
def Change.Computes (g : Graph) : Change → Prop
  | .vertex _ | .edge .. => False
  | .recolor => g.vertices ≠ #[]
  | .ask => g.vertices ≠ #[] ∧ g.colors = #[]

/-- The colours that one gets by asking `g` are a proper colouring of `h`, and no others are
there. -/
structure Shows (g h : Graph) : Prop where
  holds : ∀ i, (∃ c, g.colored.colorOf i = .ok c) ↔ h.holds i
  proper : ∀ u v : Nat, h.hasEdge u v →
    ∃ c d, g.colored.colorOf u = .ok c ∧ g.colored.colorOf v = .ok d ∧ c ≠ d

variable {g h : Graph}

theorem colorOf_natCast {v c : Nat} (hc : g.colors[v]? = some c) : g.colorOf v = .ok c := by
  simp [colorOf, hc]

theorem colorOf_eq_ok_iff {i : Int} {c : Nat} :
    g.colorOf i = .ok c ↔ ∃ v : Nat, i = v ∧ g.colors[v]? = some c := by
  constructor
  · intro hok
    rw [colorOf] at hok
    split at hok
    · rename_i d hd
      cases hok
      split at hd
      · exact ⟨i.toNat, by omega, hd⟩
      · exact nomatch hd
    · exact nomatch hok
  · rintro ⟨v, rfl, hc⟩
    exact colorOf_natCast hc

theorem exists_colorOf_iff {i : Int} :
    (∃ c, g.colorOf i = .ok c) ↔ ∃ v : Nat, i = v ∧ v < g.colors.size := by
  constructor
  · rintro ⟨c, hc⟩
    obtain ⟨v, hv, hcol⟩ := colorOf_eq_ok_iff.1 hc
    exact ⟨v, hv, (Array.getElem?_eq_some_iff.1 hcol).1⟩
  · rintro ⟨v, rfl, hv⟩
    exact ⟨g.colors[v], colorOf_natCast (Array.getElem?_eq_getElem hv)⟩

theorem shows_of_colors (hh : h.Sound) (hc : g.colored.colors = h.greedyColors) : g.Shows h := by
  constructor
  · intro i
    rw [exists_colorOf_iff, hc, size_greedyColors, holds_iff]
  · intro u v he
    obtain ⟨c, d, hu, hv, hne⟩ := greedyColors_ne hh he
    rw [← hc] at hu hv
    exact ⟨c, d, colorOf_natCast hu, colorOf_natCast hv, hne⟩

theorem colored_of_blank (hc : g.colors = #[]) : g.colored = g.recolor := by
  simp [colored, hc]

theorem colored_of_colors (hc : g.colors ≠ #[]) : g.colored = g := by
  simp [colored, hc]

theorem colored_of_recolor (h : g.recolor = g) : g.colored = g := by
  rw [colored, h]
  exact ite_self g

theorem greedyColors_ne_empty (hv : g.vertices ≠ #[]) : g.greedyColors ≠ #[] := by
  intro hc
  have hs := size_greedyColors g
  rw [hc] at hs
  exact hv (Array.eq_empty_of_size_eq_zero hs.symm)

theorem shows_of_blank (hg : g.Sound) (hc : g.colors = #[]) : g.Shows g := by
  apply shows_of_colors hg
  rw [colored_of_blank hc]
  rfl

theorem shows_recolor (hg : g.Sound) (hv : g.vertices ≠ #[]) : g.recolor.Shows g := by
  apply shows_of_colors hg
  rw [colored_of_colors (g := g.recolor) (greedyColors_ne_empty hv)]
  rfl

theorem Shows.keep {g' : Graph} (hs : g.Shows h) (hc : g.colors ≠ #[])
    (hkeep : g'.colors = g.colors) : g'.Shows h := by
  have hcolor : ∀ i, g'.colored.colorOf i = g.colored.colorOf i := fun i => by
    rw [colored_of_colors hc, colored_of_colors (hkeep ▸ hc), colorOf, colorOf, hkeep]
  constructor
  · intro i
    rw [hcolor]
    exact hs.holds i
  · intro u v he
    rw [hcolor, hcolor]
    exact hs.proper u v he

theorem sound_colored (hg : g.Sound) : g.colored.Sound := by
  unfold colored
  split
  · exact hg
  · exact hg

theorem sound_change (hg : g.Sound) (c : Change) : (g.change c).Sound := by
  cases c with
  | vertex x => exact hg.addVertex x
  | edge u v e =>
    rw [change]
    split
    · exact hg.addEdge ‹_›
    · exact hg
  | recolor => exact hg
  | ask => exact sound_colored hg

theorem colors_change (g : Graph) {c : Change} (hc : c ≠ .recolor) (hg : g.colors ≠ #[]) :
    (g.change c).colors = g.colors := by
  cases c with
  | vertex x => rfl
  | edge u v e =>
    rw [change]
    split
    · obtain ⟨-, -, -, -, -, -, -, rfl⟩ := addEdge_eq_ok_iff.1 ‹_›
      rfl
    · rfl
  | recolor => exact absurd rfl hc
  | ask => exact congrArg colors (colored_of_colors hg)

theorem Change.Computes.nonempty {c : Change} (h : c.Computes g) : g.vertices ≠ #[] := by
  cases c with
  | vertex | edge => exact h.elim
  | recolor => exact h
  | ask => exact h.1

theorem recolor_blank_or (g : Graph) : g.recolor.colors = #[] ∨ g.vertices ≠ #[] := by
  by_cases hv : g.vertices = #[]
  · left
    apply Array.eq_empty_of_size_eq_zero
    change g.greedyColors.size = 0
    rw [size_greedyColors, hv]
    rfl
  · exact .inr hv

theorem change_blank_or {c : Change} (h : c = .recolor ∨ g.colors = #[]) :
    (g.change c).colors = #[] ∨ c.Computes g ∧ g.change c = g.recolor := by
  cases c with
  | vertex x => exact .inl (h.resolve_left nofun)
  | edge u v e =>
    have hc := h.resolve_left nofun
    rw [change]
    split
    · obtain ⟨-, -, -, -, -, -, -, rfl⟩ := addEdge_eq_ok_iff.1 ‹_›
      exact .inl hc
    · exact .inl hc
  | recolor => exact g.recolor_blank_or.imp_right fun hv => ⟨hv, rfl⟩
  | ask =>
    have hc := h.resolve_left nofun
    rw [change, colored_of_blank hc]
    exact g.recolor_blank_or.imp_right fun hv => ⟨⟨hv, hc⟩, rfl⟩

theorem sound_changes (hg : g.Sound) (cs : List Change) : (g.changes cs).Sound := by
  induction cs generalizing g with
  | nil => exact hg
  | cons c cs ih => exact ih (sound_change hg c)

theorem made_concat (cs : List Change) (c : Change) : made (cs ++ [c]) = (made cs).change c := by
  simp [made, changes]

/-- After any history the colours that one gets are proper for the graph as it was when colours were
computed last, and for the graph as it is if they never were. -/
theorem shows_made (cs : List Change) :
    (made cs).colors = #[] ∧ (made cs).Shows (made cs) ∨
      ∃ pre c post, cs = pre ++ c :: post ∧ c.Computes (made pre) ∧ .recolor ∉ post ∧
        (made cs).Shows (made pre) := by
  induction cs using List.reverseRecOn with
  | nil => exact .inl ⟨rfl, shows_of_blank sound_empty rfl⟩
  | append_singleton cs c ih =>
    have hsound : (made cs).Sound := sound_changes sound_empty cs
    rw [made_concat]
    by_cases h : c = .recolor ∨ (made cs).colors = #[]
    · rcases change_blank_or h with hblank | ⟨hcomp, hr⟩
      · exact .inl ⟨hblank, shows_of_blank (sound_change hsound c) hblank⟩
      · refine .inr ⟨cs, c, [], rfl, hcomp, List.not_mem_nil, ?_⟩
        rw [hr]
        exact shows_recolor hsound hcomp.nonempty
    · -- the colours that were there stay, and so does the graph that they were computed for
      obtain ⟨hne, hcol⟩ := not_or.1 h
      rcases ih with ⟨hblank, -⟩ | ⟨pre, d, post, rfl, hcomp, hpost, hs⟩
      · exact absurd hblank hcol
      · refine .inr ⟨pre, d, post ++ [c], by simp, hcomp, ?_, ?_⟩
        · simpa [hpost] using Ne.symm hne
        · exact hs.keep hcol (colors_change _ hne hcol)

def lateVertex (id : Nat) : Vertex :=
  Vertex.fresh (.upTo id 1) [0] (Assignment.first (Scope.single (.upTo id 1))) .zero

/-- The colours need not be proper for the graph as it is: an edge that comes after them may join
vertices of one colour. -/
theorem not_shows_late : ¬ ∀ cs, (made cs).Shows (made cs) := by
  intro h
  let cs : List Change := [.vertex (lateVertex 0), .vertex (lateVertex 1), .ask, .edge 0 1 {}]
  obtain ⟨c, d, hc, hd, hne⟩ := (h cs).proper 0 1 (by decide)
  have hc0 : (made cs).colored.colorOf 0 = .ok 0 := by decide
  have hd0 : (made cs).colored.colorOf 1 = .ok 0 := by decide
  cases hc.symm.trans hc0
  cases hd.symm.trans hd0
  exact hne rfl

end FactorForest.Graph
