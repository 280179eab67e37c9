import Mathlib.Tactic

/-! Decoders of frames from the front of a stream that arrives in pieces. -/
namespace Framing

variable {β F G X : Type*}

/-- A decoder takes a value off what has arrived; `none` asks for more. -/
abbrev Decoder (β F : Type*) := List β → Option (F × List β)

/-- What is there stays there, whatever else arrives. -/
def Stable (D : Decoder β F) : Prop := ∀ b f r, D b = some (f,r) → ∀ e, D (b ++ e) = some (f,r ++ e)

/-- The next `n` units. -/
def take (n : ℕ) : Decoder β (List β) := fun b =>
  if b.length < n then none else some (b.take n,b.drop n)

theorem take_stable (n : ℕ) : Stable (take n : Decoder β (List β)) := by
  intro b f r h e
  unfold take at h ⊢
  split at h
  · simp at h
  next hlen =>
    obtain ⟨rfl,rfl⟩ := Prod.mk.inj (Option.some.inj h)
    have hle : n ≤ b.length := not_lt.mp hlen
    rw [if_neg (by rw [List.length_append]; omega),List.take_append_of_le_length hle,
      List.drop_append_of_le_length hle]

theorem take_append {n : ℕ} {s : List β} (h : s.length = n) (e : List β) :
    take n (s ++ e) = some (s,e) := by
  simp [take,← h]

/-- One decoder after the other. -/
def Decoder.bind (D : Decoder β F) (E : F → Decoder β G) : Decoder β G := fun b =>
  (D b).bind fun p => E p.1 p.2

def Decoder.map (D : Decoder β F) (v : F → G) : Decoder β G := fun b =>
  (D b).map fun p => (v p.1,p.2)

theorem Decoder.bind_of {D : Decoder β F} {b r : List β} {f : F} (h : D b = some (f,r))
    (E : F → Decoder β G) : D.bind E b = E f r := by
  simp [Decoder.bind,h]

theorem Decoder.map_of {D : Decoder β F} {b r : List β} {f : F} (h : D b = some (f,r)) (v : F → G) :
    D.map v b = some (v f,r) := by
  simp [Decoder.map,h]

theorem Stable.bind {D : Decoder β F} {E : F → Decoder β G} (hD : Stable D)
    (hE : ∀ f, Stable (E f)) : Stable (D.bind E) := by
  intro b g r h e
  obtain ⟨⟨f,b1⟩,hb,hg⟩ := Option.bind_eq_some_iff.mp h
  simp only [Decoder.bind,hD b f b1 hb e,Option.bind_some]
  exact hE f b1 g r hg e

theorem Stable.map {D : Decoder β F} (hD : Stable D) (v : F → G) : Stable (D.map v) := by
  intro b g r h e
  obtain ⟨⟨f,b1⟩,hb,hg⟩ := Option.map_eq_some_iff.mp h
  obtain ⟨rfl,rfl⟩ := Prod.mk.inj hg
  simp only [Decoder.map,hD b f b1 hb e,Option.map_some]

/-- A value takes `n` units at least. -/
def Takes (n : ℕ) (D : Decoder β F) : Prop := ∀ b f r, D b = some (f,r) → r.length + n ≤ b.length

theorem take_takes (n : ℕ) : Takes n (take n : Decoder β (List β)) := by
  intro b f r h
  unfold take at h
  split at h
  · simp at h
  · obtain ⟨-,rfl⟩ := Prod.mk.inj (Option.some.inj h)
    rw [List.length_drop]
    omega

theorem Takes.zero {n : ℕ} {D : Decoder β F} (h : Takes n D) : Takes 0 D := fun b f r hb => by
  have := h b f r hb
  omega

theorem Takes.bind {n : ℕ} {D : Decoder β F} {E : F → Decoder β G} (hD : Takes n D)
    (hE : ∀ f, Takes 0 (E f)) : Takes n (D.bind E) := by
  intro b g r h
  obtain ⟨⟨f,b1⟩,hb,hg⟩ := Option.bind_eq_some_iff.mp h
  have h1 := hD b f b1 hb
  have h2 := hE f b1 g r hg
  omega

theorem Takes.map {n : ℕ} {D : Decoder β F} (hD : Takes n D) (v : F → G) : Takes n (D.map v) := by
  intro b g r h
  obtain ⟨⟨f,b1⟩,hb,hg⟩ := Option.map_eq_some_iff.mp h
  obtain ⟨-,rfl⟩ := Prod.mk.inj hg
  exact hD b f b1 hb

/-- `enc x` is what the decoder reads as `val x`. -/
def Encodes (D : Decoder β F) (val : X → F) (enc : X → List β) : Prop :=
  ∀ x e, D (enc x ++ e) = some (val x,e)

/-- A part of a frame is not decoded. -/
theorem Encodes.part {D : Decoder β F} {val : X → F} {enc : X → List β} (h : Encodes D val enc)
    (hs : Stable D) {x : X} {k : ℕ} (hk : k < (enc x).length) : D ((enc x).take k) = none := by
  by_contra hne
  obtain ⟨⟨f,r⟩,hf⟩ := Option.ne_none_iff_exists'.mp hne
  have hall := hs _ f r hf ((enc x).drop k)
  have henc := h x []
  rw [List.append_nil] at henc
  rw [List.take_append_drop,henc] at hall
  have hnil := (Prod.mk.inj (Option.some.inj hall)).2
  have hlen := congrArg List.length hnil
  simp only [List.length_nil,List.length_append,List.length_drop] at hlen
  omega

/-- What has arrived of some frames: those that are complete, the others, and how much there is of
the first of these. -/
structure Arrival (X : Type*) where
  done : List X
  left : List X
  part : ℕ

/-- The first `n` units of some frames. -/
def arrive (enc : X → List β) : ℕ → List X → Arrival X
  | n, [] => ⟨[],[],n⟩
  | n, x :: xs =>
    if (enc x).length ≤ n then
      let a := arrive enc (n - (enc x).length) xs
      ⟨x :: a.done,a.left,a.part⟩
    else ⟨[],x :: xs,n⟩

variable (enc : X → List β)

theorem arrive_append (n : ℕ) (xs : List X) :
    (arrive enc n xs).done ++ (arrive enc n xs).left = xs := by
  induction xs generalizing n with
  | nil => rfl
  | cons x xs ih =>
    unfold arrive
    split
    · simp [ih]
    · rfl

theorem arrive_part_lt (n : ℕ) (xs : List X) : ∀ x ∈ (arrive enc n xs).left.head?,
    (arrive enc n xs).part < (enc x).length := by
  induction xs generalizing n with
  | nil => simp [arrive]
  | cons x xs ih =>
    unfold arrive
    split
    · exact ih _
    · rintro y hy
      obtain rfl : x = y := by simpa using hy
      exact not_le.mp ‹_›

theorem arrive_length (n : ℕ) (xs : List X) :
    ((arrive enc n xs).done.flatMap enc).length + (arrive enc n xs).part = n := by
  induction xs generalizing n with
  | nil => simp [arrive]
  | cons x xs ih =>
    unfold arrive
    split
    · have h := ih (n - (enc x).length)
      simp only [List.flatMap_cons,List.length_append]
      omega
    · simp

theorem arrive_flatMap (n : ℕ) (xs : List X) (tail : List β) : xs.flatMap enc ++ tail =
    (arrive enc n xs).done.flatMap enc ++ ((arrive enc n xs).left.flatMap enc ++ tail) := by
  conv_lhs => rw [← arrive_append enc n xs]
  rw [List.flatMap_append,List.append_assoc]

/-- What has arrived, as complete frames and a part of the next. -/
theorem take_arrive (n : ℕ) (xs : List X) (tail : List β) : (xs.flatMap enc ++ tail).take n =
    (arrive enc n xs).done.flatMap enc ++
      ((arrive enc n xs).left.flatMap enc ++ tail).take (arrive enc n xs).part := by
  have hlen := arrive_length enc n xs
  rw [arrive_flatMap enc n xs tail,List.take_append,List.take_of_length_le (by omega)]
  congr 2
  omega

/-- What has not arrived. -/
theorem drop_arrive (n : ℕ) (xs : List X) (tail : List β) : (xs.flatMap enc ++ tail).drop n =
    ((arrive enc n xs).left.flatMap enc ++ tail).drop (arrive enc n xs).part := by
  have hlen := arrive_length enc n xs
  rw [arrive_flatMap enc n xs tail,List.drop_append,List.drop_eq_nil_of_le (by omega),List.nil_append]
  congr 1
  omega

/-- The frames each piece of a stream completes, when `k` units of the first are there. -/
def arrivals : List (List β) → ℕ → List X → List (List X)
  | [], _, _ => []
  | d :: ds, k, xs =>
    (arrive enc (k + d.length) xs).done ::
      arrivals ds (arrive enc (k + d.length) xs).part (arrive enc (k + d.length) xs).left

/-- The pieces of a stream of frames complete them all. -/
theorem arrivals_flatten (ds : List (List β)) {k : ℕ} {xs : List X}
    (hk : ∀ x ∈ xs.head?, k < (enc x).length)
    (h : k + ds.flatten.length = (xs.flatMap enc).length) : (arrivals enc ds k xs).flatten = xs := by
  induction ds generalizing k xs with
  | nil =>
    cases xs with
    | nil => rfl
    | cons x xs =>
      have hx := hk x rfl
      simp only [List.flatten_nil,List.length_nil,List.flatMap_cons,List.length_append] at h
      omega
  | cons d ds ih =>
    have hlen := arrive_length enc (k + d.length) xs
    have hall := congrArg List.length (arrive_flatMap enc (k + d.length) xs [])
    simp only [List.append_nil,List.length_append] at hall
    rw [List.flatten_cons,List.length_append] at h
    have hrest := ih (arrive_part_lt enc (k + d.length) xs) (by omega)
    rw [arrivals,List.flatten_cons,hrest,arrive_append]

end Framing
