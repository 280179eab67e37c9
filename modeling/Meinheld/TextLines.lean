import Mathlib.Data.List.Infix

/-! Texts of lines that two symbols end, up to the first empty line. -/
namespace TextLines

section Unbroken
variable {α : Type*} (cr lf : α)

/-- The two symbols do not follow each other. -/
def Unbroken (l : List α) : Prop := ¬[cr,lf] <:+: l

variable {cr lf}

instance [DecidableEq α] (l : List α) : Decidable (Unbroken cr lf l) :=
  inferInstanceAs (Decidable (¬_))

theorem Unbroken.of_infix {l m : List α} (h : Unbroken cr lf m) (hl : l <:+: m) : Unbroken cr lf l :=
  fun hi => h (hi.trans hl)

theorem unbroken_nil : Unbroken cr lf [] := fun h => by simpa using h.length_le

theorem unbroken_concat {l : List α} {c : α} : Unbroken cr lf (l ++ [c]) ↔
    Unbroken cr lf l ∧ ¬(c = lf ∧ l.getLast? = some cr) := by
  have hends : [cr,lf] <:+ l ++ [c] ↔ c = lf ∧ l.getLast? = some cr := by
    rw [List.suffix_concat_iff]
    simp only [List.cons_ne_nil,false_or]
    constructor
    · rintro ⟨t,ht,⟨s,rfl⟩⟩
      obtain ⟨rfl,hc⟩ := List.append_inj' (show [cr] ++ [lf] = t ++ [c] from ht) rfl
      exact ⟨(List.singleton_inj.mp hc).symm,List.getLast?_concat ..⟩
    · rintro ⟨rfl,hl⟩
      obtain ⟨s,rfl⟩ := List.getLast?_eq_some_iff.mp hl
      exact ⟨[cr],rfl,List.suffix_append _ _⟩
  unfold Unbroken
  rw [List.infix_concat_iff,hends]
  tauto

/-- Another symbol keeps the two apart. -/
theorem unbroken_append_cons {s t : List α} {c : α} (hcr : c ≠ cr) (hlf : c ≠ lf) :
    Unbroken cr lf (s ++ c :: t) ↔ Unbroken cr lf s ∧ Unbroken cr lf t := by
  induction t using List.reverseRecOn with
  | nil => simp [unbroken_concat,unbroken_nil,hlf]
  | append_singleton t d ih =>
    have hlast : (s ++ c :: t).getLast? = some cr ↔ t.getLast? = some cr := by
      rcases List.eq_nil_or_concat t with rfl | ⟨t,e,rfl⟩
      · simp [hcr]
      · rw [List.concat_eq_append,← List.cons_append,← List.append_assoc,List.getLast?_concat,
          List.getLast?_concat]
    rw [← List.cons_append,← List.append_assoc,unbroken_concat,unbroken_concat,ih,hlast,and_assoc]

end Unbroken

variable {α : Type*} [DecidableEq α] (cr lf : α)

/-- The lines after the beginning `line` of one; what is not ended is no line. -/
def readFrom (line : List α) : List α → List (List α)
  | [] => []
  | c :: s =>
    if c = lf ∧ line.getLast? = some cr then
      if line.dropLast = [] then [] else line.dropLast :: readFrom [] s
    else readFrom (line ++ [c]) s

/-- The lines of a text up to the first empty one. -/
def read (s : List α) : List (List α) := readFrom cr lf [] s

variable {cr lf}

theorem readFrom_append {line t : List α} (s : List α) (h : Unbroken cr lf (line ++ t)) :
    readFrom cr lf line (t ++ s) = readFrom cr lf (line ++ t) s := by
  induction t generalizing line with
  | nil => simp
  | cons c t ih =>
    have h1 : Unbroken cr lf (line ++ [c]) := h.of_infix ⟨[],t,by simp⟩
    rw [List.cons_append,readFrom,if_neg (unbroken_concat.mp h1).2,ih (by simpa using h)]
    simp

theorem readFrom_end {line : List α} (s : List α) (hne : cr ≠ lf) : readFrom cr lf line (cr :: lf :: s) =
    if line = [] then [] else line :: readFrom cr lf [] s := by
  rw [readFrom,if_neg fun h => hne h.1,readFrom,if_pos ⟨rfl,List.getLast?_concat ..⟩,
    List.dropLast_concat]

/-- Lines that are not broken are read as they were written, and nothing after the empty line is. -/
theorem read_of_unbroken {lines : List (List α)} (s : List α) (hne : cr ≠ lf)
    (h : ∀ l ∈ lines, l ≠ [] ∧ Unbroken cr lf l) :
    read cr lf (lines.flatMap (· ++ [cr,lf]) ++ [cr,lf] ++ s) = lines := by
  induction lines with
  | nil => exact readFrom_end s hne
  | cons l lines ih =>
    obtain ⟨hl,hu⟩ := h l (by simp)
    have hrest := ih fun m hm => h m (List.mem_cons_of_mem _ hm)
    unfold read at hrest ⊢
    rw [List.flatMap_cons,List.append_assoc,List.append_assoc,List.append_assoc,
      readFrom_append _ (by simpa using hu),List.nil_append]
    rw [List.append_assoc] at hrest
    simp only [List.cons_append,List.nil_append] at hrest ⊢
    rw [readFrom_end _ hne,if_neg hl,hrest]

theorem unbroken_of_mem_readFrom {line s l : List α} (hline : Unbroken cr lf line)
    (h : l ∈ readFrom cr lf line s) : Unbroken cr lf l := by
  induction s generalizing line with
  | nil => simp [readFrom] at h
  | cons c s ih =>
    rw [readFrom] at h
    split at h
    · split at h
      · simp at h
      · rcases List.mem_cons.mp h with rfl | h
        · exact hline.of_infix (List.dropLast_prefix line).isInfix
        · exact ih unbroken_nil h
    next hc => exact ih (unbroken_concat.mpr ⟨hline,hc⟩) h

theorem unbroken_of_mem_read {s l : List α} (h : l ∈ read cr lf s) : Unbroken cr lf l :=
  unbroken_of_mem_readFrom unbroken_nil h

end TextLines
