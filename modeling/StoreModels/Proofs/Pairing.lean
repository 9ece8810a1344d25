import Mathlib.Data.List.Forall2

/-!
Lists that are paired element by element, and lists with one element more.
-/
namespace StoreModels
open List (Forall₂)

variable {α β : Type} {R S : α → β → Prop} {as : List α} {bs : List β}

theorem insertIdx_append (before after : List α) (new : α) :
    (before ++ after).insertIdx before.length new = before ++ new :: after := by
  induction before with
  | nil => simp
  | cons first rest ih => simpa using ih

theorem forall₂_imp_mem (pairs : Forall₂ R as bs) (imp : ∀ a ∈ as, ∀ b ∈ bs, R a b → S a b) : Forall₂ S as bs := by
  induction pairs with
  | nil => exact .nil
  | @cons a b as bs here _ ih =>
    refine .cons (imp a (by simp) b (by simp) here) (ih fun x left y right => ?_)
    exact imp x (List.mem_cons_of_mem _ left) y (List.mem_cons_of_mem _ right)

theorem forall₂_mem_left (pairs : Forall₂ R as bs) {a : α} (member : a ∈ as) : ∃ b ∈ bs, R a b := by
  induction pairs with
  | nil => cases member
  | @cons x y as bs here _ ih =>
    rcases List.mem_cons.mp member with rfl | later
    · exact ⟨y, by simp, here⟩
    · obtain ⟨b, found, rel⟩ := ih later
      exact ⟨b, List.mem_cons_of_mem _ found, rel⟩

theorem forall₂_mem_right (pairs : Forall₂ R as bs) {b : β} (member : b ∈ bs) : ∃ a ∈ as, R a b := by
  induction pairs with
  | nil => cases member
  | @cons x y as bs here _ ih =>
    rcases List.mem_cons.mp member with rfl | later
    · exact ⟨x, by simp, here⟩
    · obtain ⟨a, found, rel⟩ := ih later
      exact ⟨a, List.mem_cons_of_mem _ found, rel⟩

/-- Elements that each have a partner of some kind are paired with partners of that kind. -/
theorem forall₂_total {P : β → Prop} (each : ∀ a ∈ as, ∃ b, R a b ∧ P b) : ∃ bs, Forall₂ R as bs ∧ ∀ b ∈ bs, P b := by
  induction as with
  | nil => exact ⟨[], .nil, by simp⟩
  | cons a as ih =>
    obtain ⟨b, here, fits⟩ := each a (by simp)
    obtain ⟨bs, pairs, others⟩ := ih fun x member => each x (List.mem_cons_of_mem _ member)
    exact ⟨b :: bs, .cons here pairs, by simpa [fits] using others⟩

/-- The partners of two lists one after the other. -/
theorem forall₂_append_left {as' : List α} (pairs : Forall₂ R (as ++ as') bs) :
    ∃ firsts lasts, bs = firsts ++ lasts ∧ Forall₂ R as firsts ∧ Forall₂ R as' lasts := by
  induction as generalizing bs with
  | nil => exact ⟨[], bs, rfl, .nil, pairs⟩
  | cons a as ih =>
    obtain ⟨b, rest, here, later, rfl⟩ := List.forall₂_cons_left_iff.mp pairs
    obtain ⟨firsts, lasts, rfl, first, last⟩ := ih later
    exact ⟨b :: firsts, lasts, rfl, .cons here first, last⟩

/-- One element is exchanged, the others stay. -/
theorem forall₂_exchange {before after : List α} {a new : α} (pairs : Forall₂ R (before ++ a :: after) bs)
    (others : ∀ x, x ∈ before ∨ x ∈ after → ∀ b, R x b → S x b) (here : ∀ b, R a b → S new b) :
    Forall₂ S (before ++ new :: after) bs := by
  induction before generalizing bs with
  | nil =>
    cases pairs with
    | cons rel rest =>
      exact .cons (here _ rel) (forall₂_imp_mem rest fun x member b _ rel => others x (.inr member) b rel)
  | cons x before ih =>
    cases pairs with
    | cons rel rest =>
      refine .cons (others x (.inl (by simp)) _ rel) (ih rest fun y member => others y ?_)
      exact member.imp (List.mem_cons_of_mem _) id

/-- Some elements of the left list keep their partners. -/
theorem forall₂_sublist {some : List α} (sub : some.Sublist as) (pairs : Forall₂ R as bs) :
    ∃ partners, partners.Sublist bs ∧ Forall₂ R some partners := by
  induction sub generalizing bs with
  | slnil => exact ⟨[], List.nil_sublist _, .nil⟩
  | cons a _ ih =>
    cases pairs with
    | cons _ rest =>
      obtain ⟨partners, inside, kept⟩ := ih rest
      exact ⟨partners, inside.cons _, kept⟩
  | cons_cons a _ ih =>
    cases pairs with
    | @cons _ b _ _ here rest =>
      obtain ⟨partners, inside, kept⟩ := ih rest
      exact ⟨b :: partners, inside.cons_cons b, .cons here kept⟩

theorem forall₂_find? {p : α → Bool} {q : β → Bool} (pairs : Forall₂ R as bs)
    (same : ∀ a ∈ as, ∀ b ∈ bs, R a b → q b = p a) : Option.Rel R (as.find? p) (bs.find? q) := by
  induction pairs with
  | nil => exact .none
  | @cons a b as bs here _ ih =>
    have later := ih fun x left y right => same x (List.mem_cons_of_mem _ left) y (List.mem_cons_of_mem _ right)
    have is := same a (by simp) b (by simp) here
    cases found : p a with
    | true =>
      rw [List.find?_cons_of_pos found, List.find?_cons_of_pos (is.trans found)]
      exact .some here
    | false =>
      rw [List.find?_cons_of_neg (by simp [found]), List.find?_cons_of_neg (by simp [is, found])]
      exact later

theorem forall₂_filter {p : α → Bool} {q : β → Bool} (pairs : Forall₂ R as bs)
    (same : ∀ a ∈ as, ∀ b ∈ bs, R a b → p a = q b) : Forall₂ R (as.filter p) (bs.filter q) := by
  induction pairs with
  | nil => exact .nil
  | @cons a b as bs here _ ih =>
    have later := ih fun x left y right => same x (List.mem_cons_of_mem _ left) y (List.mem_cons_of_mem _ right)
    have is := same a (by simp) b (by simp) here
    cases kept : q b with
    | true =>
      rw [List.filter_cons_of_pos (is.trans kept), List.filter_cons_of_pos kept]
      exact .cons here later
    | false =>
      rw [List.filter_cons_of_neg (by simp [is, kept]), List.filter_cons_of_neg (by simp [kept])]
      exact later

theorem forall₂_flatMap {γ δ : Type} {T : γ → δ → Prop} {f : α → List γ} {g : β → List δ} (pairs : Forall₂ R as bs)
    (each : ∀ a ∈ as, ∀ b ∈ bs, R a b → Forall₂ T (f a) (g b)) : Forall₂ T (as.flatMap f) (bs.flatMap g) :=
  List.rel_flatMap (forall₂_imp_mem pairs each) fun _ _ both => both

theorem forall₂_map_eq {γ : Type} {f : α → γ} {g : β → γ} (pairs : Forall₂ R as bs) (same : ∀ a b, R a b → g b = f a) :
    bs.map g = as.map f := by
  induction pairs with
  | nil => rfl
  | cons here _ ih => rw [List.map_cons, List.map_cons, same _ _ here, ih]

theorem forall₂_zip {γ δ : Type} {T : γ → δ → Prop} {cs : List γ} {ds : List δ} (left : Forall₂ R as bs)
    (right : Forall₂ T cs ds) : Forall₂ (fun p q => R p.1 q.1 ∧ T p.2 q.2) (as.zip cs) (bs.zip ds) := by
  induction left generalizing cs ds with
  | nil => exact .nil
  | cons here _ ih =>
    cases right with
    | nil => exact .nil
    | cons there later => exact .cons ⟨here, there⟩ (ih later)

/-- Each two partners stand at the same place. -/
theorem forall₂_mem_zip (pairs : Forall₂ R as bs) : Forall₂ (fun a b => (a, b) ∈ as.zip bs ∧ R a b) as bs := by
  induction pairs with
  | nil => exact .nil
  | cons here _ ih =>
    exact .cons ⟨List.mem_cons_self, here⟩ (ih.imp fun _ _ both => ⟨List.mem_cons_of_mem _ both.1, both.2⟩)

theorem forall₂_of_mem_zip (pairs : Forall₂ R as bs) {a : α} {b : β} (member : (a, b) ∈ as.zip bs) : R a b := by
  induction pairs with
  | nil => cases member
  | cons here _ ih =>
    rcases List.mem_cons.mp member with same | later
    · cases same
      exact here
    · exact ih later

/-- Two lists that are paired with a third one are paired with each other. -/
theorem forall₂_through {γ : Type} {T : β → γ → Prop} {cs : List γ} {T' : α → γ → Prop} (left : Forall₂ T' as cs)
    (right : Forall₂ T bs cs) : Forall₂ (fun a b => ∃ c, T' a c ∧ T b c) as bs := by
  induction left generalizing bs with
  | nil =>
    cases right
    exact .nil
  | cons here _ ih =>
    cases right with
    | cons there later => exact .cons ⟨_, here, there⟩ (ih later)

theorem mem_zip_swap {a : α} {b : β} (member : (a, b) ∈ as.zip bs) : (b, a) ∈ bs.zip as := by
  induction as generalizing bs with
  | nil => cases member
  | cons x rest ih =>
    cases bs with
    | nil => cases member
    | cons y others =>
      rcases List.mem_cons.mp member with same | later
      · cases same
        exact List.mem_cons_self
      · exact List.mem_cons_of_mem _ (ih later)

/-- What stands at the place of an element that occurs once is unique. -/
theorem mem_zip_unique (distinct : as.Nodup) {a : α} {b b' : β} (first : (a, b) ∈ as.zip bs) (second : (a, b') ∈ as.zip bs) :
    b = b' := by
  induction as generalizing bs with
  | nil => cases first
  | cons x rest ih =>
    obtain ⟨fresh, distinct⟩ := List.nodup_cons.mp distinct
    cases bs with
    | nil => cases first
    | cons y others =>
      rw [List.zip_cons_cons, List.mem_cons] at first second
      rcases first with same | first
      · cases same
        rcases second with same | second
        · cases same
          rfl
        · exact absurd (List.of_mem_zip second).1 fresh
      · rcases second with same | second
        · cases same
          exact absurd (List.of_mem_zip first).1 fresh
        · exact ih distinct first second

theorem forall₂_isEmpty (pairs : Forall₂ R as bs) : bs.isEmpty = as.isEmpty := by
  cases pairs <;> rfl

theorem forall₂_findIdx? {p : α → Bool} {q : β → Bool} (pairs : Forall₂ R as bs) (same : ∀ a b, R a b → q b = p a) :
    bs.findIdx? q = as.findIdx? p := by
  induction pairs with
  | nil => rfl
  | cons here _ ih => rw [List.findIdx?_cons, List.findIdx?_cons, same _ _ here, ih]

theorem forall₂_filterMap {γ : Type} {f : α → Option γ} {g : β → Option γ} (pairs : Forall₂ R as bs)
    (same : ∀ a b, R a b → g b = f a) : bs.filterMap g = as.filterMap f := by
  induction pairs with
  | nil => rfl
  | cons here _ ih => rw [List.filterMap_cons, List.filterMap_cons, same _ _ here, ih]

theorem forall₂_getLast? (pairs : Forall₂ R as bs) : Option.Rel R as.getLast? bs.getLast? := by
  induction pairs with
  | nil => exact .none
  | @cons a b as bs here rest ih =>
    rw [List.getLast?_cons, List.getLast?_cons]
    generalize as.getLast? = last at ih ⊢
    generalize bs.getLast? = last' at ih ⊢
    cases ih with
    | none => exact .some here
    | some last => exact .some last

theorem forall₂_head? (pairs : Forall₂ R as bs) : Option.Rel R as.head? bs.head? := by
  cases pairs with
  | nil => exact .none
  | cons here _ => exact .some here

theorem rel_some_right {a : Option α} {b : β} (rel : Option.Rel R a (some b)) : ∃ c, a = some c ∧ R c b := by
  cases rel with
  | some here => exact ⟨_, rfl, here⟩

theorem rel_some_left {a : α} {b : Option β} (rel : Option.Rel R (some a) b) : ∃ c, b = some c ∧ R a c := by
  cases rel with
  | some here => exact ⟨_, rfl, here⟩

theorem rel_none_right {a : Option α} (rel : Option.Rel R a none) : a = none := by
  cases rel
  rfl

theorem rel_bind_eq {γ : Type} {a : Option α} {b : Option β} {f : α → Option γ} {g : β → Option γ}
    (rel : Option.Rel R a b) (same : ∀ x y, R x y → g y = f x) : b.bind g = a.bind f := by
  cases rel with
  | none => rfl
  | some here => exact same _ _ here

theorem rel_bind {γ δ : Type} {T : γ → δ → Prop} {a : Option α} {b : Option β} {f : α → Option γ} {g : β → Option δ}
    (rel : Option.Rel R a b) (next : ∀ x y, R x y → Option.Rel T (f x) (g y)) : Option.Rel T (a.bind f) (b.bind g) := by
  cases rel with
  | none => exact .none
  | some here => exact next _ _ here

end StoreModels
