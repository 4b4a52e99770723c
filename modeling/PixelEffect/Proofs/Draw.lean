import PixelEffect.Draw
import PixelEffect.Proofs.Node.Walk

namespace PixelEffect

open Node

namespace Stage

/-- A root that is attached to a stage. -/
inductive Attachment
  | color (n : Node)
  | coverage (n : Node)

namespace Attachment

def color? : Attachment → Option Node
  | color n => some n
  | coverage _ => none

def coverage? : Attachment → Option Node
  | color _ => none
  | coverage n => some n

end Attachment

def attach (s : Stage) : Attachment → Stage
  | .color n => s.addColor n
  | .coverage n => s.addCoverage n

/-- A stage with some roots for color and some for coverage, and the boundary between them where it
belongs. -/
structure Holds (s : Stage) (colors coverages : List Node) : Prop where
  roots : s.roots = colors ++ coverages
  colorCount : s.colorCount = colors.length

section

variable {s : Stage} {colors coverages : List Node}

theorem holds_empty : empty.Holds [] [] where
  roots := rfl
  colorCount := rfl

/-- A tree for color is put behind those for color, in front of all trees for coverage. -/
theorem Holds.addColor (h : s.Holds colors coverages) (n : Node) :
    (s.addColor n).Holds (colors ++ [n]) coverages where
  roots := by
    rw [Stage.addColor, h.roots, h.colorCount, List.take_left, List.drop_left, List.append_assoc]
    rfl
  colorCount := by rw [Stage.addColor, h.colorCount, List.length_append, List.length_singleton]

/-- A tree for coverage is put behind everything else. -/
theorem Holds.addCoverage (h : s.Holds colors coverages) (n : Node) :
    (s.addCoverage n).Holds colors (coverages ++ [n]) where
  roots := by rw [Stage.addCoverage, h.roots, List.append_assoc]
  colorCount := h.colorCount

/-- Whatever is attached in between, both groups stay in order. -/
theorem Holds.foldl_attach (h : s.Holds colors coverages) (attachments : List Attachment) :
    (attachments.foldl attach s).Holds (colors ++ attachments.filterMap Attachment.color?)
      (coverages ++ attachments.filterMap Attachment.coverage?) := by
  induction attachments generalizing s colors coverages with
  | nil => simpa using h
  | cons attachment attachments ih =>
    cases attachment with
    | color n =>
      have hrest := ih (h.addColor n)
      rw [List.append_assoc] at hrest
      exact hrest
    | coverage n =>
      have hrest := ih (h.addCoverage n)
      rw [List.append_assoc] at hrest
      exact hrest

end

end Stage

/-- A walk over a paint has the nodes of the color tree ahead, and then those of the coverage
tree. -/
theorem Paint.upcoming_walk (p : Paint) :
    p.walk.upcoming = p.color.toList.flatMap preorder ++ p.coverage.toList.flatMap preorder := by
  obtain ⟨color, coverage⟩ := p
  cases color <;> cases coverage <;> simp [walk, Walk.upcoming, Walk.push]

/-- A walk over trees visits one after the other in pre-order, which is the lexicographic order of
the paths to its nodes, and then ends. The trees of a paint are its color tree and its coverage
tree, those of a stage the roots attached for color and then those attached for coverage. -/
theorem walk_preorder :
    (∀ roots : List Node, (Walk.ofRoots roots).Yields (roots.flatMap preorder) ∧
      (Walk.ofRoots roots).toList = roots.flatMap preorder ∧
      (roots.flatMap preorder).length = (Walk.ofRoots roots).remaining) ∧
    (∀ root : Node, ∃ paths : List Path, paths.Pairwise (· < ·) ∧
      (∀ path, path ∈ paths ↔ (root.at? path).isSome) ∧
      root.preorder.map some = paths.map (root.at? ·)) ∧
    (∀ p : Paint, p.walk.Yields p.nodes ∧
      p.nodes = p.color.toList.flatMap preorder ++ p.coverage.toList.flatMap preorder) ∧
    (∀ attachments : List Stage.Attachment,
      (attachments.foldl Stage.attach .empty).walk.Yields
        (attachments.foldl Stage.attach .empty).nodes ∧
      (attachments.foldl Stage.attach .empty).nodes =
        (attachments.filterMap Stage.Attachment.color?).flatMap preorder ++
          (attachments.filterMap Stage.Attachment.coverage?).flatMap preorder) := by
  have hwalk : ∀ w : Walk, w.Yields w.toList := fun w => w.toList_eq ▸ w.yields_upcoming
  refine ⟨fun roots => ⟨?_, Walk.toList_eq _, Walk.length_upcoming _⟩,
    fun root => ⟨root.paths, root.pairwise_paths, fun _ => mem_paths, root.preorder_eq_paths⟩,
    fun p => ⟨hwalk p.walk, ?_⟩, fun attachments => ⟨hwalk _, ?_⟩⟩
  · exact Walk.yields_upcoming _
  · rw [Paint.nodes, Walk.toList_eq, p.upcoming_walk]
  · have hroots := (Stage.holds_empty.foldl_attach attachments).roots
    rw [Stage.nodes, Walk.toList_eq, Stage.walk, Walk.upcoming, Walk.ofRoots, hroots,
      List.flatMap_append]
    rfl

end PixelEffect
