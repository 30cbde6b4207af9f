import CombLogic.Proofs.Block.Linted
import CombLogic.Proofs.Block.Visits

/- Rejections for items that overlap. The check of a case fails only if the case is a site of the block. -/
namespace CombLogic

open Expr Stmt

variable {settings : BlockSettings} {g : Netlist} {shape : Coverage.Shape} {x : BlockError}

theorem caseShape_site {kind : CaseKind} {selector : Expr} {items : List CaseItem}
    (failed : Coverage.check settings (caseShape g kind selector items) = .error x) :
    ∃ site ∈ (if kind.unique ∧ 1 < items.length then
        [⟨kind.wildcard, selector, items, fun _ σ => some (some σ)⟩] else [] : List Site),
      site.shape g = caseShape g kind selector items := by
  obtain ⟨unique, -, i, j, found, -⟩ := Coverage.check_error failed
  obtain ⟨less, a, b, -, there, -⟩ := Coverage.mem_overlaps.mp found
  have several : 1 < items.length := by
    have bound := (List.getElem?_eq_some_iff.mp there).1
    simp only [caseShape] at bound
    split at bound
    · simp only [constants, List.length_map] at bound
      omega
    · simp only [List.length_nil] at bound
      omega
  rw [if_pos ⟨unique, several⟩]
  refine ⟨_, List.mem_singleton.mpr rfl, ?_⟩
  obtain ⟨wildcard, _⟩ := kind
  cases (unique : _ = true)
  rfl

mutual

theorem shapes_site (s : Stmt) (listed : shape ∈ s.shapes g)
    (failed : Coverage.check settings shape = .error x) :
    ∃ site ∈ s.sites, site.shape g = shape := by
  cases s with
  | assign target value => cases listed
  | ifElse e thenBody elseBody =>
    rcases List.mem_append.mp listed with first | second
    · obtain ⟨site, here, same⟩ := bodyShapes_site thenBody first failed
      exact ⟨_, List.mem_append_left _ (List.mem_map_of_mem here), same⟩
    · obtain ⟨site, here, same⟩ := bodyShapes_site elseBody second failed
      exact ⟨_, List.mem_append_right _ (List.mem_map_of_mem here), same⟩
  | case kind selector items default =>
    rcases List.mem_cons.mp listed with rfl | inner
    · obtain ⟨site, here, same⟩ := caseShape_site failed
      exact ⟨site, List.mem_append_left _ here, same⟩
    · rcases List.mem_append.mp inner with first | last
      · obtain ⟨site, here, same⟩ := itemShapes_site kind.wildcard selector [] items first failed
        exact ⟨site, List.mem_append_right _ (List.mem_append_left _ here), same⟩
      · obtain ⟨site, here, same⟩ := bodyShapes_site default last failed
        exact ⟨_, List.mem_append_right _ (List.mem_append_right _ (List.mem_map_of_mem here)), same⟩

theorem bodyShapes_site (body : List Stmt) (listed : shape ∈ bodyShapes g body)
    (failed : Coverage.check settings shape = .error x) :
    ∃ site ∈ bodySites body, site.shape g = shape := by
  cases body with
  | nil => cases listed
  | cons s rest =>
    rcases List.mem_append.mp listed with first | later
    · obtain ⟨site, here, same⟩ := shapes_site s first failed
      exact ⟨site, List.mem_append_left _ here, same⟩
    · obtain ⟨site, here, same⟩ := bodyShapes_site rest later failed
      exact ⟨_, List.mem_append_right _ (List.mem_map_of_mem here), same⟩

theorem itemShapes_site (wildcard : Bool) (selector : Expr) (past items : List CaseItem)
    (listed : shape ∈ itemShapes g items) (failed : Coverage.check settings shape = .error x) :
    ∃ site ∈ itemSites wildcard selector past items, site.shape g = shape := by
  cases items with
  | nil => cases listed
  | cons item rest =>
    obtain ⟨patterns, body⟩ := item
    rcases List.mem_append.mp listed with first | later
    · obtain ⟨site, here, same⟩ := bodyShapes_site body first failed
      exact ⟨_, List.mem_append_left _ (List.mem_map_of_mem here), same⟩
    · obtain ⟨site, here, same⟩ := itemShapes_site wildcard selector _ rest later failed
      exact ⟨site, List.mem_append_right _ here, same⟩

end

end CombLogic
