import Mathlib.Data.List.Induction

/-!
# Texts in a row

Texts that are joined with a separator before each, and when the texts can be told from the whole: at most one of them may have the
separator in it.
-/

namespace Separated

variable {α : Type} {sep : α}

/-- The texts, each behind a separator. -/
def joined (sep : α) (ts : List (List α)) : List α := ts.flatMap (sep :: ·)

@[simp] theorem joined_nil : joined sep [] = [] := rfl

@[simp] theorem joined_cons (t : List α) (ts : List (List α)) : joined sep (t :: ts) = sep :: (t ++ joined sep ts) := by
  simp [joined]

@[simp] theorem joined_append (ts us : List (List α)) : joined sep (ts ++ us) = joined sep ts ++ joined sep us := by
  simp [joined]

/-- What a loop that appends to the text makes of it. -/
theorem foldl_eq_joined {β : Type} (f : β → List α) (xs : List β) (start : List α) :
    xs.foldl (fun text x => text ++ sep :: f x) start = start ++ joined sep (xs.map f) := by
  induction xs generalizing start with
  | nil => simp
  | cons x xs ih => simp [ih]

/-- Two texts without a separator that are followed by one, or by nothing, are the same. -/
theorem append_inj_of_notMem {x x' a a' : List α} (hx : sep ∉ x) (hx' : sep ∉ x') (ha : ∀ c ∈ a.head?, c = sep)
    (ha' : ∀ c ∈ a'.head?, c = sep) (h : x ++ a = x' ++ a') : x = x' ∧ a = a' := by
  induction x generalizing x' with
  | nil =>
    cases x' with
    | nil => exact ⟨rfl, h⟩
    | cons c x' =>
      simp only [List.nil_append, List.cons_append] at h
      rw [ha c (by simp [h])] at hx'
      exact absurd (List.mem_cons_self ..) hx'
  | cons c x ih =>
    cases x' with
    | nil =>
      simp only [List.nil_append, List.cons_append] at h
      rw [ha' c (by simp [← h])] at hx
      exact absurd (List.mem_cons_self ..) hx
    | cons c' x' =>
      obtain ⟨rfl, htail⟩ := List.cons.inj h
      obtain ⟨rfl, hrest⟩ := ih (fun hm => hx (List.mem_cons_of_mem _ hm)) (fun hm => hx' (List.mem_cons_of_mem _ hm)) htail
      exact ⟨rfl, hrest⟩

theorem head_joined (ts : List (List α)) : ∀ c ∈ (joined sep ts).head?, c = sep := by
  intro c hc
  cases ts with
  | nil => simp at hc
  | cons t ts => simpa using hc.symm

/-- The text behind the last separator. -/
theorem append_cons_inj_of_notMem {x x' a a' : List α} (hx : sep ∉ x) (hx' : sep ∉ x') (h : a ++ sep :: x = a' ++ sep :: x') :
    a = a' ∧ x = x' := by
  have h := congrArg List.reverse h
  simp only [List.reverse_append, List.reverse_cons, List.append_assoc, List.singleton_append] at h
  have hr : sep ∉ x.reverse := by simpa using hx
  have hr' : sep ∉ x'.reverse := by simpa using hx'
  obtain ⟨h₁, h₂⟩ := append_inj_of_notMem hr hr' (by simp) (by simp) h
  exact ⟨List.reverse_inj.mp (List.cons.inj h₂).2, List.reverse_inj.mp h₁⟩

/-- Texts without separators behind any other text. -/
theorem joined_last_inj {t t' : List α} {ts ts' : List (List α)} (hlen : ts.length = ts'.length) (hts : ∀ x ∈ ts, sep ∉ x)
    (hts' : ∀ x ∈ ts', sep ∉ x) (h : t ++ joined sep ts = t' ++ joined sep ts') : t = t' ∧ ts = ts' := by
  induction ts using List.reverseRecOn generalizing ts' with
  | nil =>
    obtain rfl := List.eq_nil_of_length_eq_zero (hlen.symm.trans List.length_nil)
    exact ⟨by simpa using h, rfl⟩
  | append_singleton ts x ih =>
    rcases List.eq_nil_or_concat ts' with rfl | ⟨ts', x', rfl⟩
    · simp at hlen
    · simp only [List.concat_eq_append, joined_append, joined_cons, joined_nil, List.append_nil, ← List.append_assoc] at h hts' hlen ⊢
      obtain ⟨hinit, rfl⟩ := append_cons_inj_of_notMem (hts x (by simp)) (hts' x' (by simp)) h
      obtain ⟨rfl, rfl⟩ := ih (by simpa using hlen) (fun y hy => hts y (by simp [hy])) (fun y hy => hts' y (by simp [hy])) hinit
      exact ⟨rfl, rfl⟩

/-- Where at most one text may have separators, all texts are found again. -/
theorem joined_inj {pre pre' post post' : List (List α)} {t t' : List α} (hpre : pre.length = pre'.length)
    (hpost : post.length = post'.length) (hts : ∀ x ∈ pre ++ post, sep ∉ x) (hts' : ∀ x ∈ pre' ++ post', sep ∉ x)
    (h : joined sep (pre ++ t :: post) = joined sep (pre' ++ t' :: post')) : pre = pre' ∧ t = t' ∧ post = post' := by
  induction pre generalizing pre' with
  | nil =>
    obtain rfl := List.eq_nil_of_length_eq_zero (hpre.symm.trans List.length_nil)
    simp only [List.nil_append, joined_cons, List.cons.injEq, true_and] at h hts hts'
    exact ⟨rfl, joined_last_inj hpost hts hts' h⟩
  | cons x pre ih =>
    cases pre' with
    | nil => simp at hpre
    | cons x' pre' =>
      simp only [List.cons_append, joined_cons, List.cons.injEq, true_and] at h
      obtain ⟨rfl, htail⟩ := append_inj_of_notMem (hts x (by simp)) (hts' x' (by simp)) (head_joined _) (head_joined _) h
      obtain ⟨rfl, hrest⟩ := ih (by simpa using hpre) (fun y hy => hts y (by simp at hy ⊢; tauto))
        (fun y hy => hts' y (by simp at hy ⊢; tauto)) htail
      exact ⟨rfl, hrest⟩

/-- Two texts that may have separators can be confused, whatever stands between them. -/
theorem joined_collide (sep : α) (pre mid post : List (List α)) : joined sep (pre ++ [] :: (mid ++ (joined sep mid ++ [sep]) :: post)) =
      joined sep (pre ++ (joined sep mid ++ [sep]) :: (mid ++ [] :: post)) := by
  simp

end Separated
