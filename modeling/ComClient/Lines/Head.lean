/-
  ComClient.Lines.Head — texts of lines, and the fields of a line.

  A message is some lines, an empty one, and a body (`render`). `head` reads it from the
  left; it gives back the lines and the body if and only if the text is their message and
  the lines are fit for one (`head_eq_some_iff`).
-/

import Mathlib.Data.List.Basic

namespace ComClient.Lines

variable {α : Type*}

def render (eol : α) (lines : List (List α)) (body : List α) : List α := lines.flatMap (· ++ [eol]) ++ eol :: body

@[simp] theorem render_nil (eol : α) (body : List α) : render eol [] body = eol :: body := rfl

@[simp] theorem render_cons (eol : α) (line : List α) (lines : List (List α)) (body : List α) :
    render eol (line :: lines) body = line ++ eol :: render eol lines body := by
  simp [render]

theorem render_append (eol : α) (lines : List (List α)) (body more : List α) :
    render eol lines body ++ more = render eol lines (body ++ more) := by
  simp [render]

/-- A line that ends where it is meant to, and does not end the message. -/
structure Fit (eol : α) (line : List α) : Prop where
  noEnd : eol ∉ line
  nonempty : line ≠ []

variable [DecidableEq α] {eol : α}

/-- The lines before the first empty one, and what stands behind it. The `line` is what was read
    of the current one. -/
def head (eol : α) (line : List α) : List α → Option (List (List α) × List α)
  | [] => none
  | c :: text =>
    if c = eol then
      if line = [] then some ([], text) else (head eol [] text).map fun p => (line :: p.1, p.2)
    else head eol (line ++ [c]) text

/-- A line is read to its end. -/
theorem head_line {line : List α} (h : eol ∉ line) (acc text : List α) :
    head eol acc (line ++ eol :: text) = head eol (acc ++ line) (eol :: text) := by
  induction line generalizing acc with
  | nil => rw [List.nil_append, List.append_nil]
  | cons c line ih =>
    rw [List.mem_cons, not_or] at h
    obtain ⟨hc, hline⟩ := h
    rw [List.cons_append, head, if_neg (Ne.symm hc), ih hline, List.append_assoc, List.singleton_append]

theorem head_render {lines : List (List α)} (h : ∀ line ∈ lines, Fit eol line) (body : List α) :
    head eol [] (render eol lines body) = some (lines, body) := by
  induction lines with
  | nil => rw [render_nil, head, if_pos rfl, if_pos rfl]
  | cons line lines ih =>
    obtain ⟨hline, hlines⟩ := List.forall_mem_cons.mp h
    rw [render_cons, head_line hline.noEnd, List.nil_append, head, if_pos rfl, if_neg hline.nonempty, ih hlines]
    rfl

/-- What has been read of the current line is the beginning of the first that is found. -/
theorem head_found {acc text body : List α} {lines : List (List α)} (hacc : eol ∉ acc)
    (h : head eol acc text = some (lines, body)) :
    acc ++ text = render eol lines body ∧ ∀ line ∈ lines, Fit eol line := by
  induction text generalizing acc lines with
  | nil => cases h
  | cons c text ih =>
    rw [head] at h
    by_cases hc : c = eol
    · subst hc
      rw [if_pos rfl] at h
      by_cases hempty : acc = []
      · subst hempty
        rw [if_pos rfl] at h
        cases h
        exact ⟨rfl, by simp⟩
      · rw [if_neg hempty, Option.map_eq_some_iff] at h
        obtain ⟨⟨lines', body'⟩, hrest, hpair⟩ := h
        cases hpair
        obtain ⟨htext, hfit⟩ := ih List.not_mem_nil hrest
        refine ⟨?_, ?_⟩
        · rw [render_cons, ← htext, List.nil_append]
        · exact List.forall_mem_cons.mpr ⟨⟨hacc, hempty⟩, hfit⟩
    · rw [if_neg hc] at h
      have hacc' : eol ∉ acc ++ [c] := by
        rw [List.mem_append, List.mem_singleton, not_or]
        exact ⟨hacc, fun heq => hc heq.symm⟩
      have hread := ih hacc' h
      rw [List.append_assoc, List.singleton_append] at hread
      exact hread

/-- Reading and writing are inverse to each other. -/
theorem head_eq_some_iff {text body : List α} {lines : List (List α)} :
    head eol [] text = some (lines, body) ↔ text = render eol lines body ∧ ∀ line ∈ lines, Fit eol line := by
  constructor
  · intro h
    exact head_found List.not_mem_nil h
  · rintro ⟨rfl, hfit⟩
    exact head_render hfit body

/-! ## Fields -/

/-- No field has the separator in it. -/
theorem separator_not_mem {sep : α} {field line : List α} (h : field ∈ line.splitOn sep) : sep ∉ field := by
  induction line generalizing field with
  | nil =>
    rw [List.splitOn_nil, List.mem_singleton] at h
    rw [h]
    exact List.not_mem_nil
  | cons c line ih =>
    rw [List.splitOn_cons_eq_if_modifyHead] at h
    by_cases hc : c = sep
    · rw [if_pos (beq_iff_eq.mpr hc)] at h
      rcases List.mem_cons.mp h with rfl | h
      · exact List.not_mem_nil
      · exact ih h
    · rw [if_neg (by rwa [beq_iff_eq])] at h
      obtain ⟨first, others, hsplit⟩ := List.exists_cons_of_ne_nil (List.splitOn_ne_nil sep line)
      rw [hsplit, List.modifyHead_cons] at h
      rcases List.mem_cons.mp h with rfl | h
      · have hfirst : sep ∉ first := ih (by rw [hsplit]; exact List.mem_cons_self)
        rw [List.mem_cons, not_or]
        exact ⟨fun heq => hc heq.symm, hfirst⟩
      · exact ih (by rw [hsplit]; exact List.mem_cons_of_mem _ h)

/-- What stands in a field stands in the line. -/
theorem mem_of_field {sep c : α} {field line : List α} (h : field ∈ line.splitOn sep) (hc : c ∈ field) : c ∈ line := by
  have hline : [sep].intercalate (line.splitOn sep) = line := List.intercalate_splitOn sep
  rw [← hline]
  clear hline
  generalize line.splitOn sep = fields at h
  induction fields with
  | nil => cases h
  | cons first others ih =>
    cases others with
    | nil =>
      rw [List.mem_singleton] at h
      rw [h] at hc
      simpa using hc
    | cons second others =>
      rw [List.intercalate_cons_cons]
      rcases List.mem_cons.mp h with rfl | h
      · exact List.mem_append_left _ (List.mem_append_left _ hc)
      · exact List.mem_append_right _ (ih h)

end ComClient.Lines
