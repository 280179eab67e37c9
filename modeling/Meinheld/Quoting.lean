import Mathlib.Tactic

/-! Text between quotes: the quote inside it is escaped, and the escape character is not. -/
namespace Quoting

variable {α : Type*} [DecidableEq α] {q e : α}

/-- A quote is written as the escape character and the quote. -/
def escape (q e : α) (v : List α) : List α := v.flatMap fun c => if c = q then [e,q] else [c]

/-- A field read up to the first quote that no escape character is before, and what follows it. -/
def readField (q e : α) : List α → Option (List α × List α)
  | [] => none
  | [c] => if c = q then some ([],[]) else none
  | c :: d :: s =>
    if c = e ∧ d = q then (readField q e s).map (Prod.map (q :: ·) id)
    else if c = q then some ([],d :: s)
    else (readField q e (d :: s)).map (Prod.map (c :: ·) id)

/-- The first `n` fields. -/
def readFields (q e : α) : ℕ → List α → Option (List (List α))
  | 0, _ => some []
  | n + 1, s => (readField q e s).bind fun r => (readFields q e n r.2).map (r.1 :: ·)

@[simp] theorem escape_nil : escape q e [] = [] := rfl

theorem escape_cons (c : α) (v : List α) :
    escape q e (c :: v) = (if c = q then [e,q] else [c]) ++ escape q e v := rfl

@[simp] theorem escape_append (v w : List α) : escape q e (v ++ w) = escape q e v ++ escape q e w :=
  List.flatMap_append

/-- Text without a quote is written as it is. -/
theorem escape_eq_self {v : List α} (h : q ∉ v) : escape q e v = v := by
  induction v with
  | nil => rfl
  | cons c v ih =>
    simp only [List.mem_cons,not_or] at h
    rw [escape_cons,if_neg (Ne.symm h.1),ih h.2]
    rfl

/-- Nothing but escape characters is added. -/
theorem mem_escape {c : α} {v : List α} (he : c ≠ e) : c ∈ escape q e v ↔ c ∈ v := by
  induction v with
  | nil => rfl
  | cons d v ih =>
    rw [escape_cons,List.mem_append,ih,List.mem_cons]
    split
    next hd => simp [hd,he]
    · simp

theorem readField_quote (s : List α) (hqe : q ≠ e) : readField q e (q :: s) = some ([],s) := by
  cases s with
  | nil => simp [readField]
  | cons d s => rw [readField,if_neg (fun h => hqe h.1),if_pos rfl]

theorem readField_escaped (s : List α) :
    readField q e (e :: q :: s) = (readField q e s).map (Prod.map (q :: ·) id) := by
  rw [readField,if_pos ⟨rfl,rfl⟩]

theorem readField_char {c : α} {s : List α} (hc : c ≠ q) (h : c = e → s.head? ≠ some q) :
    readField q e (c :: s) = (readField q e s).map (Prod.map (c :: ·) id) := by
  cases s with
  | nil => simp [readField,hc]
  | cons d s =>
    rw [readField,if_neg (fun hcd => h hcd.1 (congrArg some hcd.2)),if_neg hc]

/-- The reader goes through written text, unless that ends in an escape character and a quote
follows. -/
theorem readField_escape_append (hqe : q ≠ e) {v s : List α}
    (h : v.getLast? = some e → s.head? ≠ some q) :
    readField q e (escape q e v ++ s) = (readField q e s).map (Prod.map (v ++ ·) id) := by
  induction v with
  | nil => simp [Prod.map_def]
  | cons c v ih =>
    have hlast : v.getLast? = some e → s.head? ≠ some q := fun hv =>
      h (by rw [List.getLast?_cons,hv]; rfl)
    rw [escape_cons,List.append_assoc]
    split
    next hc =>
      subst hc
      rw [List.cons_append,List.cons_append,List.nil_append,readField_escaped,ih hlast,Option.map_map]
      rfl
    next hc =>
      rw [List.singleton_append,readField_char hc,ih hlast,Option.map_map]
      · rfl
      · intro hce
        cases v with
        | nil => exact h (by simp [hce])
        | cons d v =>
          rw [escape_cons]
          split
          · simpa using hqe.symm
          next hd => simpa using hd

theorem readField_escape_last (hqe : q ≠ e) (w s : List α) :
    readField q e (escape q e (w ++ [e]) ++ q :: s) =
      (readField q e s).map (Prod.map (w ++ q :: ·) id) := by
  have hw : escape q e (w ++ [e]) ++ q :: s = escape q e w ++ e :: q :: s := by
    rw [escape_append,escape_eq_self (v := [e]) (by simpa using hqe),List.append_assoc]
    rfl
  rw [hw,readField_escape_append hqe (fun _ => by simpa using hqe.symm),readField_escaped,Option.map_map]
  rfl

theorem readField_escape (hqe : q ≠ e) {v : List α} (h : v.getLast? ≠ some e) (s : List α) :
    readField q e (escape q e v ++ q :: s) = some (v,s) := by
  rw [readField_escape_append hqe (fun hv => absurd hv h),readField_quote _ hqe]
  simp

theorem readFields_cons (hqe : q ≠ e) {v s : List α} (h : v.getLast? ≠ some e) (n : ℕ) :
    readFields q e (n + 1) (escape q e v ++ q :: s) = (readFields q e n s).map (v :: ·) := by
  rw [readFields,readField_escape hqe h]
  rfl

/-- A field that ends in the escape character is not the one that is read. -/
theorem readFields_head_ne (hqe : q ≠ e) {v s : List α} (h : v.getLast? = some e) {n : ℕ}
    {fs : List (List α)} (hread : readFields q e (n + 1) (escape q e v ++ q :: s) = some fs) :
    ∃ x xs, fs = x :: xs ∧ x ≠ v := by
  obtain ⟨r,hr,hmap⟩ := Option.bind_eq_some_iff.mp hread
  obtain ⟨xs,-,rfl⟩ := Option.map_eq_some_iff.mp hmap
  obtain ⟨w,rfl⟩ := List.getLast?_eq_some_iff.mp h
  rw [readField_escape_last hqe,Option.map_eq_some_iff] at hr
  obtain ⟨t,-,rfl⟩ := hr
  refine ⟨_,xs,rfl,fun hcut => ?_⟩
  exact hqe (List.cons.inj (List.append_cancel_left hcut)).1

end Quoting
