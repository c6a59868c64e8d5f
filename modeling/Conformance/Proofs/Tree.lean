import Conformance.Explanation

/-!
# Explanation trees

What is added to an explanation stands behind what was there, at the root. A tree that has a message
anywhere within the levels that are shown has a line for each depth of at least one.
-/

namespace Conformance

namespace Explanation

/-- The explanation with another one behind it. -/
def append (e new : Explanation) : Explanation :=
  ⟨e.messages ++ new.messages, e.children ++ new.children⟩

mutual

/-- The number of levels below the root. -/
def height : Explanation → Nat
  | ⟨_, children⟩ => heights children

def heights : List Explanation → Nat
  | [] => 0
  | child :: children => max (child.height + 1) (heights children)

end

@[simp] theorem append_empty (e : Explanation) : e.append .empty = e := by
  cases e
  simp [append, empty]

@[simp] theorem empty_append (e : Explanation) : empty.append e = e := by
  cases e
  rfl

theorem append_assoc (e f g : Explanation) : (e.append f).append g = e.append (f.append g) := by
  simp [append]

@[simp] theorem isEmpty_empty : empty.isEmpty = true := rfl

@[simp] theorem height_empty : empty.height = 0 := rfl

@[simp] theorem isEmpty_append (e new : Explanation) :
    (e.append new).isEmpty = (e.isEmpty && new.isEmpty) := by
  obtain ⟨messages, children⟩ := e
  obtain ⟨messages', children'⟩ := new
  cases messages <;> cases messages' <;> simp [append, isEmpty, allEmpty_eq]

private theorem heights_append (es fs : List Explanation) :
    heights (es ++ fs) = max (heights es) (heights fs) := by
  induction es with
  | nil => simp [heights]
  | cons e es ih => simp only [List.cons_append, heights, ih, Nat.max_assoc]

@[simp] theorem height_append (e new : Explanation) :
    (e.append new).height = max e.height new.height := by
  obtain ⟨_, children⟩ := e
  obtain ⟨_, children'⟩ := new
  exact heights_append children children'

theorem height_lt_of_mem {child : Explanation} {children : List Explanation}
    (h : child ∈ children) : child.height < heights children := by
  induction children with
  | nil => nomatch h
  | cons c cs ih =>
    rw [heights]
    rcases List.mem_cons.1 h with rfl | h
    · exact Nat.le_max_left _ _
    · exact Nat.lt_of_lt_of_le (ih h) (Nat.le_max_right _ _)

def ofMessage (message : String) : Explanation := ⟨[message], []⟩

theorem addMessage_eq (e : Explanation) (message : String) :
    e.addMessage message = e.append (.ofMessage message) := by
  simp [addMessage, append, ofMessage]

@[simp] theorem isEmpty_ofMessage (message : String) : (ofMessage message).isEmpty = false := rfl

@[simp] theorem height_ofMessage (message : String) : (ofMessage message).height = 0 := rfl

def ofChild (child : Explanation) : Explanation := ⟨[], [child]⟩

theorem addChild_eq (e child : Explanation) : e.addChild child = e.append (.ofChild child) := by
  simp [addChild, append, ofChild]

@[simp] theorem isEmpty_ofChild (child : Explanation) :
    (ofChild child).isEmpty = child.isEmpty := by
  simp [ofChild, isEmpty, allEmpty]

@[simp] theorem height_ofChild (child : Explanation) :
    (ofChild child).height = child.height + 1 := by
  simp [ofChild, height, heights]

private theorem linesWithin_ne_nil {levels depth : Nat} {e : Explanation} (he : e.isEmpty = false)
    (hh : e.height < levels) : linesWithin levels (depth + 1) e ≠ [] := by
  induction levels generalizing e with
  | zero => exact absurd hh (Nat.not_lt_zero _)
  | succ levels ih =>
    obtain ⟨messages, children⟩ := e
    rw [linesWithin]
    split
    · rename_i none
      obtain ⟨child, mem, told⟩ : ∃ child ∈ children, child.isEmpty = false := by
        simpa [isEmpty, allEmpty_eq, none] using he
      have lower : child.height < levels :=
        Nat.lt_of_lt_of_le (height_lt_of_mem mem) (Nat.le_of_lt_succ hh)
      intro nothing
      exact ih told lower (List.flatMap_eq_nil_iff.1 nothing child mem)
    · rename_i some
      simpa using fun none => absurd none (by simpa using some)

/-- A tree with a message that is not too deep is shown by at least one line. -/
theorem lines_ne_nil {e : Explanation} (he : e.isEmpty = false) (hh : e.height ≤ deepestLevel)
    {maxDepth : Int} (hd : 1 ≤ maxDepth) (maxLines : Int) : e.lines maxDepth maxLines ≠ [] := by
  obtain ⟨depth, hdepth⟩ : ∃ depth, maxDepth.toNat = depth + 1 := ⟨maxDepth.toNat - 1, by omega⟩
  have shown : linesWithin (deepestLevel + 1) (depth + 1) e ≠ [] :=
    linesWithin_ne_nil he (Nat.lt_succ_of_le hh)
  unfold lines
  rw [hdepth]
  dsimp only
  split
  · simp
  · exact shown

end Explanation

end Conformance
