import Conformance.Proofs.Tree

/-!
# What is shown of an explanation

The lines of a tree are put together from the leaves up: a node moves the lines below it two blanks to
the right if it has messages, and hands the depth that is left down to its children. Read from the root
down they are the messages in the order of the tree, each moved by its own level, as far as depth and
level allow.
-/

namespace Conformance

namespace Explanation

/-- A message where it stands in a tree: the depth of its node below the root, and the number of nodes
with messages on the way from the root down to its node, which is one of them. -/
structure Told where
  depth : Nat
  level : Nat
  message : String

def blanks (n : Nat) : String := String.ofList (List.replicate n ' ')

private theorem blanks_add (n k : Nat) : blanks (n + k) = blanks n ++ blanks k := by
  rw [blanks, blanks, blanks, ← String.ofList_append, List.replicate_append_replicate]

namespace Told

def lineBelow (above : Nat) (m : Told) : String := blanks (2 * (m.level - above)) ++ m.message

/-- The message, moved to the right by two blanks for each level. -/
def line (m : Told) : String := blanks (2 * m.level) ++ m.message

end Told

mutual

/-- The messages of a tree in order, those of a node before those of its children. The node stands at
the depth, and so many nodes above it have messages. -/
def told (depth above : Nat) : Explanation → List Told
  | ⟨messages, children⟩ =>
    let level := if messages.isEmpty then above else above + 1
    messages.map (fun message => ⟨depth, level, message⟩) ++ toldByAll (depth + 1) level children

def toldByAll (depth above : Nat) : List Explanation → List Told
  | [] => []
  | child :: children => told depth above child ++ toldByAll depth above children

end

/-- The first lines up to a limit, with an ellipsis if there are more. A negative limit is none. -/
def cutAt (limit : Int) (lines : List String) : List String :=
  if 0 ≤ limit ∧ limit < lines.length then lines.take limit.toNat ++ ["  ..."] else lines

private theorem toldByAll_eq (depth above : Nat) (children : List Explanation) :
    toldByAll depth above children = children.flatMap (told depth above) := by
  induction children with
  | nil => rfl
  | cons c cs ih => rw [toldByAll, List.flatMap_cons, ih]

private theorem told_eq (depth above : Nat) (messages : List String) (children : List Explanation) :
    told depth above ⟨messages, children⟩ =
      messages.map (fun message => ⟨depth, if messages.isEmpty then above else above + 1, message⟩) ++
        children.flatMap (told (depth + 1) (if messages.isEmpty then above else above + 1)) := by
  rw [told, toldByAll_eq]

@[elab_as_elim]
private theorem of_children {p : Explanation → Prop}
    (node : ∀ messages children, (∀ child ∈ children, p child) → p ⟨messages, children⟩)
    (e : Explanation) : p e := by
  obtain ⟨n, size⟩ : ∃ n, e.height < n := ⟨_, Nat.lt_succ_self _⟩
  induction n generalizing e with
  | zero => exact absurd size (Nat.not_lt_zero _)
  | succ n ih =>
    obtain ⟨messages, children⟩ := e
    refine node messages children fun child mem => ih child ?_
    exact Nat.lt_of_lt_of_le (height_lt_of_mem mem) (Nat.le_of_lt_succ size)

private theorem bounds_of_mem_told {depth above : Nat} {e : Explanation} {m : Told}
    (h : m ∈ told depth above e) : depth ≤ m.depth ∧ above < m.level := by
  induction e using of_children generalizing depth above with
  | node messages children ih =>
    rw [told_eq, List.mem_append] at h
    rcases h with own | below
    · obtain ⟨message, here, rfl⟩ := List.mem_map.1 own
      have some : messages.isEmpty = false := List.isEmpty_eq_false_iff_exists_mem.2 ⟨message, here⟩
      simp [some]
    · obtain ⟨child, here, mem⟩ := List.mem_flatMap.1 below
      obtain ⟨deeper, beyond⟩ := ih child here mem
      refine ⟨Nat.le_of_succ_le deeper, Nat.lt_of_le_of_lt ?_ beyond⟩
      split <;> omega

private theorem told_eq_nil {e : Explanation} (h : e.isEmpty = true) (depth above : Nat) :
    told depth above e = [] := by
  induction e using of_children generalizing depth above with
  | node messages children ih =>
    rw [isEmpty, Bool.and_eq_true, allEmpty_eq, List.all_eq_true] at h
    obtain ⟨none, below⟩ := h
    rw [told_eq, List.isEmpty_iff.1 none, List.map_nil, List.nil_append, List.flatMap_eq_nil_iff]
    exact fun child mem => ih child mem (below child mem) _ _

def shownTo (deepest highest : Nat) (ms : List Told) : List Told :=
  ms.filter fun m => m.depth < deepest && m.level ≤ highest

private theorem shownTo_append (deepest highest : Nat) (ms ms' : List Told) :
    shownTo deepest highest (ms ++ ms') = shownTo deepest highest ms ++ shownTo deepest highest ms' :=
  List.filter_append ..

private theorem shownTo_flatMap {α : Type} (deepest highest : Nat) (f : α → List Told)
    (as : List α) :
    shownTo deepest highest (as.flatMap f) = as.flatMap fun a => shownTo deepest highest (f a) := by
  induction as with
  | nil => rfl
  | cons a as ih => rw [List.flatMap_cons, List.flatMap_cons, shownTo_append, ih]

private theorem shownTo_told_of_le {deepest highest depth above : Nat}
    (h : deepest ≤ depth ∨ highest ≤ above)
    (e : Explanation) : shownTo deepest highest (told depth above e) = [] := by
  refine List.filter_eq_nil_iff.2 fun m mem => ?_
  obtain ⟨deeper, beyond⟩ := bounds_of_mem_told mem
  simp only [Bool.and_eq_true, decide_eq_true_eq]
  omega

private theorem shownTo_own {deepest highest depth level : Nat} (hd : depth < deepest)
    (hl : level ≤ highest)
    (messages : List String) :
    shownTo deepest highest (messages.map fun message => ⟨depth, level, message⟩) =
      messages.map fun message => ⟨depth, level, message⟩ := by
  refine List.filter_eq_self.2 fun m mem => ?_
  obtain ⟨message, -, rfl⟩ := List.mem_map.1 mem
  simp [hd, hl]

private theorem moved_lineBelow {above : Nat} {m : Told} (h : above < m.level) :
    "  " ++ m.lineBelow (above + 1) = m.lineBelow above := by
  have further : 2 * (m.level - above) = 2 + 2 * (m.level - (above + 1)) := by omega
  rw [Told.lineBelow, Told.lineBelow, further, blanks_add, String.append_assoc]
  rfl

private theorem moved_shownTo (deepest highest depth above : Nat) (e : Explanation) :
    ((shownTo deepest highest (told depth (above + 1) e)).map (Told.lineBelow (above + 1))).map
        ("  " ++ ·) =
      (shownTo deepest highest (told depth (above + 1) e)).map (Told.lineBelow above) := by
  rw [List.map_map]
  refine List.map_congr_left fun m mem => moved_lineBelow ?_
  exact Nat.lt_of_succ_lt (bounds_of_mem_told (List.mem_filter.1 mem).1).2

private theorem linesWithin_eq (levels budget depth above : Nat) (e : Explanation) :
    linesWithin levels budget e =
      (shownTo (depth + levels) (above + budget) (told depth above e)).map (Told.lineBelow above) := by
  induction levels generalizing budget depth above e with
  | zero => rw [linesWithin, Nat.add_zero, shownTo_told_of_le (.inl (Nat.le_refl depth)), List.map_nil]
  | succ levels ih =>
    obtain ⟨messages, children⟩ := e
    cases budget with
    | zero => rw [linesWithin, Nat.add_zero above, shownTo_told_of_le (.inr (Nat.le_refl above)), List.map_nil]
    | succ budget =>
      have deepest : depth + 1 + levels = depth + (levels + 1) := by omega
      rw [linesWithin, told_eq, shownTo_append, shownTo_flatMap]
      cases none : messages.isEmpty with
      | true =>
        obtain rfl := List.isEmpty_iff.1 none
        have below (child : Explanation) := ih (budget + 1) (depth + 1) above child
        simp only [deepest] at below
        simp [shownTo, List.map_flatMap, funext below]
      | false =>
        have highest : above + 1 + budget = above + (budget + 1) := by omega
        have below (child : Explanation) := ih budget (depth + 1) (above + 1) child
        simp only [deepest, highest] at below
        have own := shownTo_own (Nat.lt_add_of_pos_right (Nat.succ_pos levels) : depth < _)
          (Nat.add_le_add_left (Nat.succ_pos budget) above) messages
        simp only [Bool.false_eq_true, if_false, own, List.map_append, List.map_flatMap, below,
          moved_shownTo]
        congr 1
        rw [List.map_map]
        refine List.map_congr_left fun message _ => ?_
        simp [Told.lineBelow, blanks]

private theorem shownTo_root (maxDepth : Int) (e : Explanation) :
    shownTo (deepestLevel + 1) maxDepth.toNat (told 0 0 e) =
      (told 0 0 e).filter fun m => m.depth ≤ 64 ∧ (m.level : Int) ≤ maxDepth := by
  refine List.filter_congr fun m mem => ?_
  have beyond : 0 < m.level := (bounds_of_mem_told mem).2
  rw [Bool.eq_iff_iff, Bool.and_eq_true, decide_eq_true_eq, decide_eq_true_eq, decide_eq_true_eq,
    deepestLevel]
  omega

private theorem cutAt_nil {limit : Int} (all : limit < 0) : cutAt limit [] = [] :=
  if_neg fun bounded => absurd bounded.1 (Int.not_le.2 all)

private theorem lines_eq_cutAt (e : Explanation) (maxDepth maxLines : Int) :
    e.lines maxDepth maxLines =
      cutAt maxLines (e.linesWithin (deepestLevel + 1) maxDepth.toNat) := by
  rw [lines, cutAt]
  refine ite_congr ?_ (fun _ => rfl) fun _ => rfl
  rw [eq_iff_iff]
  omega

/-- The lines of a tree are its messages in order, as far down as trees are shown and as many levels as
are asked for, each moved by its level, and cut at the number of lines. Of a tree that is not too deep
all lines are none just if it has no message. -/
theorem lines_eq_listed (e : Explanation) (maxDepth maxLines : Int) :
    e.lines maxDepth maxLines =
        cutAt maxLines (((told 0 0 e).filter fun m => m.depth ≤ 64 ∧ (m.level : Int) ≤ maxDepth).map
          Told.line) ∧
      (e.height ≤ 64 → 1 ≤ maxDepth → maxLines < 0 →
        (e.lines maxDepth maxLines = [] ↔ e.isEmpty = true)) := by
  have listed : e.lines maxDepth maxLines =
      cutAt maxLines (((told 0 0 e).filter fun m => m.depth ≤ 64 ∧ (m.level : Int) ≤ maxDepth).map
        Told.line) := by
    rw [lines_eq_cutAt, linesWithin_eq _ _ 0 0, Nat.zero_add, Nat.zero_add, shownTo_root]
    rfl
  refine ⟨listed, fun shallow deep all => ⟨fun nothing => ?_, fun silent => ?_⟩⟩
  · exact eq_true_of_ne_false fun telling => lines_ne_nil telling shallow deep maxLines nothing
  · rw [listed, told_eq_nil silent]
    exact cutAt_nil all

/-- A message that stands below a node without messages and beside another one, cut at one line. -/
theorem lines_of_three_nodes :
    lines ⟨["outer"], [⟨[], [⟨["inner"], []⟩]⟩]⟩ 2 1 = ["  outer", "  ..."] ∧
      (lines ⟨[], [⟨[], []⟩]⟩ 1 (-1) = [] ↔ isEmpty ⟨[], [⟨[], []⟩]⟩ = true) :=
  ⟨(lines_eq_listed _ 2 1).1.trans (by decide),
    (lines_eq_listed ⟨[], [⟨[], []⟩]⟩ 1 (-1)).2 (by decide) (by decide) (by decide)⟩

end Explanation

end Conformance
