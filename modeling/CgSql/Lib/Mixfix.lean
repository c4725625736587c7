import Mathlib.Tactic.Common

/-!
# Texts of expressions with operators of all kinds

Expressions of operators before, after, between and around their operands, each with its level, and of brackets; the texts that denote them,
with parentheses; and the way such texts are read by a grammar that resolves conflicts by levels. A text is read as the tree it was written
for if and only if nothing that stands outside of parentheses is looser than its place needs, and nothing captures what follows it.
-/

/-- The operators of a grammar and their levels: an operand is read from its level on. -/
structure Mixfix where
  /-- Operands that have no parts. -/
  Atom : Type
  /-- Brackets with a name before them, such as calls. -/
  Fn : Type
  /-- Operators before their operand. -/
  Pre : Type
  /-- Operators after their operand. -/
  Post : Type
  /-- Operators after their operand that end with brackets. -/
  Brk : Type
  /-- Operators between two operands. -/
  Bin : Type
  /-- Operators between three operands. -/
  Tern : Type
  preLevel : Pre → Nat
  /-- The tightest place where an operator before its operand may stand. -/
  preLead : Pre → Nat
  postLevel : Post → Nat
  /-- The tightest operator that may follow. -/
  postCap : Post → Nat
  brkLevel : Brk → Nat
  brkCap : Brk → Nat
  binLevel : Bin → Nat
  /-- The level of the right operand: that of the operator or the next one, as it associates. -/
  binRight : Bin → Nat
  ternLevel : Tern → Nat
  ternMiddle : Tern → Nat
  ternRight : Tern → Nat
  /-- What stands between the second operand and the third. -/
  separator : Tern → Bin
  separator_lt : ∀ o, binLevel (separator o) < ternMiddle o

namespace Mixfix

/-- An expression. -/
inductive Tree (G : Mixfix)
  | atom (a : G.Atom)
  | closed (f : G.Fn) (t : Tree G)
  | pre (o : G.Pre) (t : Tree G)
  | post (o : G.Post) (t : Tree G)
  | brk (o : G.Brk) (t c : Tree G)
  | bin (o : G.Bin) (l r : Tree G)
  | tern (o : G.Tern) (l m r : Tree G)

/-- An expression as it is written, with parentheses. -/
inductive Text (G : Mixfix)
  | atom (a : G.Atom)
  | closed (f : G.Fn) (t : Text G)
  | pre (o : G.Pre) (t : Text G)
  | post (o : G.Post) (t : Text G)
  | brk (o : G.Brk) (t c : Text G)
  | bin (o : G.Bin) (l r : Text G)
  | tern (o : G.Tern) (l m r : Text G)
  | paren (t : Text G)

inductive Token (G : Mixfix)
  | atom (a : G.Atom)
  | opening (f : G.Fn)
  | pre (o : G.Pre)
  | post (o : G.Post)
  | brk (o : G.Brk)
  | bin (o : G.Bin)
  | tern (o : G.Tern)
  | lparen
  | rparen

variable {G : Mixfix}

/-! ## Texts -/

namespace Text

/-- The tree that a text was written for. -/
def tree : Text G → Tree G
  | atom a => .atom a
  | closed f t => .closed f t.tree
  | pre o t => .pre o t.tree
  | post o t => .post o t.tree
  | brk o t c => .brk o t.tree c.tree
  | bin o l r => .bin o l.tree r.tree
  | tern o l m r => .tern o l.tree m.tree r.tree
  | paren t => t.tree

def tokens : Text G → List (Token G)
  | atom a => [.atom a]
  | closed f t => .opening f :: (t.tokens ++ [.rparen])
  | pre o t => .pre o :: t.tokens
  | post o t => t.tokens ++ [.post o]
  | brk o t c => t.tokens ++ .brk o :: (c.tokens ++ [.rparen])
  | bin o l r => l.tokens ++ .bin o :: r.tokens
  | tern o l m r => l.tokens ++ .tern o :: (m.tokens ++ .bin (G.separator o) :: r.tokens)
  | paren t => .lparen :: (t.tokens ++ [.rparen])

/-- A text that can be read from the level `n` on: every operator on its left edge is as tight. -/
def lead (n : Nat) : Text G → Bool
  | pre o _ => n ≤ G.preLead o
  | post o t => n ≤ G.postLevel o && t.lead n
  | brk o t _ => n ≤ G.brkLevel o && t.lead n
  | bin o l _ => n ≤ G.binLevel o && l.lead n
  | tern o l _ _ => n ≤ G.ternLevel o && l.lead n
  | _ => true

/-- An operator of the level `k` that follows is left alone: nothing on the right edge takes it, and it may stand there. -/
def yields (k : Nat) : Text G → Bool
  | post o _ => k ≤ G.postCap o
  | brk o _ _ => k ≤ G.brkCap o
  | pre o t => k < G.preLevel o && t.yields k
  | bin o _ r => k < G.binRight o && r.yields k
  | tern o _ _ r => k < G.ternRight o && r.yields k
  | _ => true

/-- Every operand can be read at its place, and leaves the operator after it alone. -/
def Fits : Text G → Prop
  | atom _ => True
  | closed _ t => t.Fits
  | pre o t => t.lead (G.preLevel o) = true ∧ t.Fits
  | post o t => t.yields (G.postLevel o) = true ∧ t.Fits
  | brk o t c => (t.yields (G.brkLevel o) = true ∧ t.Fits) ∧ c.Fits
  | bin o l r => (l.yields (G.binLevel o) = true ∧ l.Fits) ∧ r.lead (G.binRight o) = true ∧ r.Fits
  | tern o l m r => (l.yields (G.ternLevel o) = true ∧ l.Fits) ∧
      (m.lead (G.ternMiddle o) = true ∧ m.yields (G.binLevel (G.separator o)) = true ∧ m.Fits) ∧
      r.lead (G.ternRight o) = true ∧ r.Fits
  | paren t => t.Fits

theorem lead_zero (t : Text G) : t.lead 0 = true := by
  induction t <;> simp_all [lead]

end Text

/-! ## Reading -/

/-- What is being read: an expression from the level `n` on, or what follows its first operand `u`. -/
inductive Goal (G : Mixfix)
  | expr (n : Nat)
  | rest (n : Nat) (u : Tree G)

/-- The level at which a token goes on with what is before it. -/
def Token.level? : Token G → Option Nat
  | .post o => some (G.postLevel o)
  | .brk o => some (G.brkLevel o)
  | .bin o => some (G.binLevel o)
  | .tern o => some (G.ternLevel o)
  | _ => none

/-- Where the next token is an operator, its level has the property. -/
def Next (p : Nat → Prop) (ts : List (Token G)) : Prop := ∀ k, ts.head?.bind Token.level? = some k → p k

/-- Tokens are read as a tree, up to the rest of them. -/
inductive Reads : Goal G → List (Token G) → Tree G → List (Token G) → Prop
  | atom {n a ts t rest} : Reads (.rest n (.atom a)) ts t rest → Reads (.expr n) (.atom a :: ts) t rest
  | closed {n f ts u ts' t rest} : Reads (.expr 0) ts u (.rparen :: ts') → Reads (.rest n (.closed f u)) ts' t rest →
      Reads (.expr n) (.opening f :: ts) t rest
  | paren {n ts u ts' t rest} : Reads (.expr 0) ts u (.rparen :: ts') → Reads (.rest n u) ts' t rest →
      Reads (.expr n) (.lparen :: ts) t rest
  | pre {n o ts u ts' t rest} : n ≤ G.preLead o → Reads (.expr (G.preLevel o)) ts u ts' → Reads (.rest n (.pre o u)) ts' t rest →
      Reads (.expr n) (.pre o :: ts) t rest
  | stop {n u ts} : Next (· < n) ts → Reads (.rest n u) ts u ts
  | post {n u o ts t rest} : n ≤ G.postLevel o → Next (· ≤ G.postCap o) ts → Reads (.rest n (.post o u)) ts t rest →
      Reads (.rest n u) (.post o :: ts) t rest
  | brk {n u o ts c ts' t rest} : n ≤ G.brkLevel o → Reads (.expr 0) ts c (.rparen :: ts') → Next (· ≤ G.brkCap o) ts' →
      Reads (.rest n (.brk o u c)) ts' t rest → Reads (.rest n u) (.brk o :: ts) t rest
  | bin {n u o ts r ts' t rest} : n ≤ G.binLevel o → Reads (.expr (G.binRight o)) ts r ts' →
      Reads (.rest n (.bin o u r)) ts' t rest → Reads (.rest n u) (.bin o :: ts) t rest
  | tern {n u o ts m ts' r ts'' t rest} : n ≤ G.ternLevel o → Reads (.expr (G.ternMiddle o)) ts m (.bin (G.separator o) :: ts') →
      Reads (.expr (G.ternRight o)) ts' r ts'' → Reads (.rest n (.tern o u m r)) ts'' t rest → Reads (.rest n u) (.tern o :: ts) t rest

theorem Next.nil {p : Nat → Prop} : Next (G := G) p [] := by
  intro k h
  cases h

variable {ts : List (Token G)}

theorem Next.rparen {p : Nat → Prop} : Next p (.rparen :: ts) := by
  intro k h
  cases h

theorem Next.imp {p q : Nat → Prop} (h : Next p ts) (hpq : ∀ k, p k → q k) : Next q ts :=
  fun k hk => hpq k (h k hk)

namespace Text

/-- A text that fits is read as its tree, and then what follows is. -/
theorem reads_aux : ∀ {t : Text G}, t.Fits → ∀ {n ts T rest}, t.lead n = true → Next (fun k => t.yields k = true) ts →
    Reads (.rest n t.tree) ts T rest → Reads (.expr n) (t.tokens ++ ts) T rest
  | atom a, _, n, ts, T, rest, _, _, h => .atom h
  | closed f t, hf, n, ts, T, rest, _, _, h => by
    have ht : Reads (.expr 0) (t.tokens ++ .rparen :: ts) t.tree (.rparen :: ts) :=
      reads_aux (t := t) hf t.lead_zero Next.rparen (.stop Next.rparen)
    simpa [tokens] using Reads.closed ht h
  | paren t, hf, n, ts, T, rest, _, _, h => by
    have ht : Reads (.expr 0) (t.tokens ++ .rparen :: ts) t.tree (.rparen :: ts) :=
      reads_aux (t := t) hf t.lead_zero Next.rparen (.stop Next.rparen)
    simpa [tokens] using Reads.paren ht h
  | pre o t, hf, n, ts, T, rest, hl, hy, h => by
    simp only [yields, Bool.and_eq_true, decide_eq_true_eq] at hy
    exact .pre (of_decide_eq_true hl) (reads_aux hf.2 hf.1 (hy.imp fun _ hk => hk.2) (.stop (hy.imp fun _ hk => hk.1))) h
  | post o t, hf, n, ts, T, rest, hl, hy, h => by
    simp only [lead, Bool.and_eq_true, decide_eq_true_eq] at hl
    simp only [yields, decide_eq_true_eq] at hy
    have hnext : Next (fun k => t.yields k = true) (.post o :: ts) := by
      intro k hk
      cases hk
      exact hf.1
    simpa [tokens] using reads_aux hf.2 hl.2 hnext (.post hl.1 hy h)
  | brk o t c, hf, n, ts, T, rest, hl, hy, h => by
    simp only [lead, Bool.and_eq_true, decide_eq_true_eq] at hl
    simp only [yields, decide_eq_true_eq] at hy
    have hc : Reads (.expr 0) (c.tokens ++ .rparen :: ts) c.tree (.rparen :: ts) :=
      reads_aux hf.2 c.lead_zero Next.rparen (.stop Next.rparen)
    have hnext : Next (fun k => t.yields k = true) (.brk o :: (c.tokens ++ .rparen :: ts)) := by
      intro k hk
      cases hk
      exact hf.1.1
    simpa [tokens] using reads_aux hf.1.2 hl.2 hnext (.brk hl.1 hc hy h)
  | bin o l r, hf, n, ts, T, rest, hl, hy, h => by
    simp only [lead, Bool.and_eq_true, decide_eq_true_eq] at hl
    simp only [yields, Bool.and_eq_true, decide_eq_true_eq] at hy
    have hr : Reads (.expr (G.binRight o)) (r.tokens ++ ts) r.tree ts :=
      reads_aux hf.2.2 hf.2.1 (hy.imp fun _ hk => hk.2) (.stop (hy.imp fun _ hk => hk.1))
    have hnext : Next (fun k => l.yields k = true) (.bin o :: (r.tokens ++ ts)) := by
      intro k hk
      cases hk
      exact hf.1.1
    simpa [tokens] using reads_aux hf.1.2 hl.2 hnext (.bin hl.1 hr h)
  | tern o l m r, hf, n, ts, T, rest, hl, hy, h => by
    simp only [lead, Bool.and_eq_true, decide_eq_true_eq] at hl
    simp only [yields, Bool.and_eq_true, decide_eq_true_eq] at hy
    have hr : Reads (.expr (G.ternRight o)) (r.tokens ++ ts) r.tree ts :=
      reads_aux hf.2.2.2 hf.2.2.1 (hy.imp fun _ hk => hk.2) (.stop (hy.imp fun _ hk => hk.1))
    have hseparator : ∀ p : Nat → Prop, p (G.binLevel (G.separator o)) → Next p (.bin (G.separator o) :: (r.tokens ++ ts)) := by
      intro p hp k hk
      cases hk
      exact hp
    have hm : Reads (.expr (G.ternMiddle o)) (m.tokens ++ .bin (G.separator o) :: (r.tokens ++ ts)) m.tree
        (.bin (G.separator o) :: (r.tokens ++ ts)) :=
      reads_aux hf.2.1.2.2 hf.2.1.1 (hseparator _ hf.2.1.2.1) (.stop (hseparator _ (G.separator_lt o)))
    have hnext : Next (fun k => l.yields k = true) (.tern o :: (m.tokens ++ .bin (G.separator o) :: (r.tokens ++ ts))) := by
      intro k hk
      cases hk
      exact hf.1.1
    simpa [tokens] using reads_aux hf.1.2 hl.2 hnext (.tern hl.1 hm hr h)

/-- A text that fits is read as the tree it was written for. -/
theorem reads_of_fits {t : Text G} (h : t.Fits) : Reads (.expr 0) t.tokens t.tree [] := by
  have h := reads_aux h t.lead_zero Next.nil (.stop Next.nil)
  rwa [List.append_nil] at h

end Text

/-! ## Parentheses -/

/-- The number of tokens of a kind that every text of a tree has. -/
def Tree.count (p : Token G → Bool) : Tree G → Nat
  | .atom a => (p (.atom a)).toNat
  | .closed f t => t.count p + (p (.opening f)).toNat
  | .pre o t => t.count p + (p (.pre o)).toNat
  | .post o t => t.count p + (p (.post o)).toNat
  | .brk o t c => t.count p + c.count p + (p (.brk o)).toNat
  | .bin o l r => l.count p + r.count p + (p (.bin o)).toNat
  | .tern o l m r => l.count p + m.count p + r.count p + (p (.tern o)).toNat + (p (.bin (G.separator o))).toNat

def Token.isWord : Token G → Bool
  | .lparen | .rparen => false
  | _ => true

/-- What follows the parenthesis that closes the one before, after `k` that are closed first. -/
def afterClosing : Nat → List (Token G) → List (Token G)
  | _, [] => []
  | 0, .rparen :: ts => ts
  | k + 1, .rparen :: ts => afterClosing k ts
  | k, .lparen :: ts | k, .opening _ :: ts | k, .brk _ :: ts => afterClosing (k + 1) ts
  | k, .atom _ :: ts | k, .pre _ :: ts | k, .post _ :: ts | k, .bin _ :: ts | k, .tern _ :: ts => afterClosing k ts

namespace Text

/-- Texts of one tree differ in their parentheses only. -/
theorem countP_tokens {p : Token G → Bool} (hl : p .lparen = false) (hr : p .rparen = false) (t : Text G) :
    t.tokens.countP p = t.tree.count p := by
  have hcons : ∀ (tok : Token G) (ts : List (Token G)), (tok :: ts).countP p = ts.countP p + (p tok).toNat := by
    intro tok ts
    cases h : p tok <;> simp [h]
  induction t with
  | atom a => simp [tokens, tree, Tree.count, hcons]
  | closed f t ih => simp [tokens, tree, Tree.count, hcons, ih, hr]
  | pre o t ih => simp [tokens, tree, Tree.count, hcons, ih]
  | post o t ih => simp [tokens, tree, Tree.count, hcons, ih]
  | brk o t c iht ihc => simp [tokens, tree, Tree.count, hcons, iht, ihc, hr]; omega
  | bin o l r ihl ihr => simp [tokens, tree, Tree.count, hcons, ihl, ihr]; omega
  | tern o l m r ihl ihm ihr => simp [tokens, tree, Tree.count, hcons, ihl, ihm, ihr]; omega
  | paren t ih => simp [tokens, tree, hcons, ih, hl, hr]

theorem afterClosing_tokens (t : Text G) : ∀ k ts, afterClosing k (t.tokens ++ ts) = afterClosing k ts := by
  induction t <;> simp_all [tokens, afterClosing]

/-- What stands between two parentheses is found from the first. -/
theorem tokens_closing {s t : Text G} {x y : List (Token G)} (h : s.tokens ++ .rparen :: x = t.tokens ++ .rparen :: y) : s.tokens = t.tokens := by
  have hxy := congrArg (afterClosing 0) h
  rw [afterClosing_tokens, afterClosing_tokens] at hxy
  obtain rfl : x = y := hxy
  exact List.append_cancel_right h

/-- A parenthesis at the start of a text is around all of it or around a smaller text. -/
theorem starts_lparen {t : Text G} {r : List (Token G)} (h : .lparen :: ts = t.tokens ++ r) :
    (∃ s, t = paren s) ∨ ∃ p y, ts = tokens p ++ .rparen :: y ∧ p.tree.count Token.isWord < t.tree.count Token.isWord := by
  -- The parenthesis is that of the first operand, so only the left edge matters.
  have hedge : ∀ {l : Text G} {x : List (Token G)} {n : Nat}, l.tree.count Token.isWord < n →
      (.lparen :: ts = l.tokens ++ x → (∃ s, l = paren s) ∨
        ∃ p y, ts = tokens p ++ .rparen :: y ∧ p.tree.count Token.isWord < l.tree.count Token.isWord) →
      .lparen :: ts = l.tokens ++ x → ∃ p y, ts = tokens p ++ .rparen :: y ∧ p.tree.count Token.isWord < n := by
    intro l x n hn ih h
    obtain ⟨s, rfl⟩ | ⟨p, y, hts, hp⟩ := ih h
    · exact ⟨s, x, by simpa [tokens] using h, hn⟩
    · exact ⟨p, y, hts, by omega⟩
  induction t generalizing r with
  | atom | closed | pre => cases h
  | paren t => exact .inl ⟨t, rfl⟩
  | post o t ih => exact .inr (hedge (by simp [tree, Tree.count, Token.isWord]) ih (by simpa [tokens] using h))
  | brk o t c ih _ => exact .inr (hedge (by simp only [tree, Tree.count]; grind [Token.isWord]) ih (by simpa [tokens] using h))
  | bin o l r' ih _ => exact .inr (hedge (by simp only [tree, Tree.count]; grind [Token.isWord]) ih (by simpa [tokens] using h))
  | tern o l m r' ih _ _ => exact .inr (hedge (by simp only [tree, Tree.count]; grind [Token.isWord]) ih (by simpa [tokens] using h))

/-- Texts of one tree that start with the same tokens are both in parentheses or neither is. -/
theorem eq_paren {s t : Text G} {r r' : List (Token G)} (h : (paren s).tokens ++ r = t.tokens ++ r') (htree : s.tree = t.tree) :
    ∃ t', t = paren t' := by
  have h : .lparen :: (s.tokens ++ .rparen :: r) = t.tokens ++ r' := by simpa [tokens] using h
  obtain ht | ⟨p, y, hp, hlt⟩ := starts_lparen h
  · exact ht
  · have := congrArg (List.countP Token.isWord) (tokens_closing hp)
    rw [countP_tokens rfl rfl, countP_tokens rfl rfl, htree] at this
    omega

/-- A text is given by its tree and its tokens. -/
theorem eq_of_tokens {t t' : Text G} {r r' : List (Token G)} (htree : t.tree = t'.tree) (h : t.tokens ++ r = t'.tokens ++ r') :
    t = t' ∧ r = r' := by
  induction t generalizing t' r r' with
  | paren s ih =>
    obtain ⟨s', rfl⟩ := eq_paren h htree
    have h : s.tokens ++ .rparen :: r = s'.tokens ++ .rparen :: r' := by simpa [tokens] using h
    have hs : s = s' ∧ _ := ih htree h
    obtain ⟨rfl, hr⟩ := hs
    exact ⟨rfl, (List.cons.inj hr).2⟩
  | atom a =>
    cases t' with
    | paren s' => exact absurd (eq_paren h.symm htree.symm) nofun
    | atom b =>
      cases htree
      exact ⟨rfl, (List.cons.inj h).2⟩
    | _ => cases htree
  | closed f s ih =>
    cases t' with
    | paren s' => exact absurd (eq_paren h.symm htree.symm) nofun
    | closed f' s' =>
      obtain ⟨rfl, hs⟩ := Tree.closed.inj htree
      have h : s.tokens ++ .rparen :: r = s'.tokens ++ .rparen :: r' := by simpa [tokens] using h
      obtain ⟨rfl, hr⟩ := ih hs h
      exact ⟨rfl, (List.cons.inj hr).2⟩
    | _ => cases htree
  | pre o s ih =>
    cases t' with
    | paren s' => exact absurd (eq_paren h.symm htree.symm) nofun
    | pre o' s' =>
      obtain ⟨rfl, hs⟩ := Tree.pre.inj htree
      obtain ⟨rfl, hr⟩ := ih hs (List.cons.inj h).2
      exact ⟨rfl, hr⟩
    | _ => cases htree
  | post o s ih =>
    cases t' with
    | paren s' => exact absurd (eq_paren h.symm htree.symm) nofun
    | post o' s' =>
      obtain ⟨rfl, hs⟩ := Tree.post.inj htree
      have h : s.tokens ++ .post o :: r = s'.tokens ++ .post o :: r' := by simpa [tokens] using h
      obtain ⟨rfl, hr⟩ := ih hs h
      exact ⟨rfl, (List.cons.inj hr).2⟩
    | _ => cases htree
  | brk o s c ihs ihc =>
    cases t' with
    | paren s' => exact absurd (eq_paren h.symm htree.symm) nofun
    | brk o' s' c' =>
      obtain ⟨rfl, hs, hc⟩ := Tree.brk.inj htree
      have h : s.tokens ++ .brk o :: (c.tokens ++ .rparen :: r) = s'.tokens ++ .brk o :: (c'.tokens ++ .rparen :: r') := by
        simpa [tokens] using h
      obtain ⟨rfl, hcontent⟩ := ihs hs h
      obtain ⟨rfl, hr⟩ := ihc hc (List.cons.inj hcontent).2
      exact ⟨rfl, (List.cons.inj hr).2⟩
    | _ => cases htree
  | bin o l s ihl ihs =>
    cases t' with
    | paren s' => exact absurd (eq_paren h.symm htree.symm) nofun
    | bin o' l' s' =>
      obtain ⟨rfl, hl, hs⟩ := Tree.bin.inj htree
      have h : l.tokens ++ .bin o :: (s.tokens ++ r) = l'.tokens ++ .bin o :: (s'.tokens ++ r') := by simpa [tokens] using h
      obtain ⟨rfl, hright⟩ := ihl hl h
      obtain ⟨rfl, hr⟩ := ihs hs (List.cons.inj hright).2
      exact ⟨rfl, hr⟩
    | _ => cases htree
  | tern o l m s ihl ihm ihs =>
    cases t' with
    | paren s' => exact absurd (eq_paren h.symm htree.symm) nofun
    | tern o' l' m' s' =>
      obtain ⟨rfl, hl, hm, hs⟩ := Tree.tern.inj htree
      have h : l.tokens ++ .tern o :: (m.tokens ++ .bin (G.separator o) :: (s.tokens ++ r)) =
          l'.tokens ++ .tern o :: (m'.tokens ++ .bin (G.separator o) :: (s'.tokens ++ r')) := by simpa [tokens] using h
      obtain ⟨rfl, hmiddle⟩ := ihl hl h
      obtain ⟨rfl, hright⟩ := ihm hm (List.cons.inj hmiddle).2
      obtain ⟨rfl, hr⟩ := ihs hs (List.cons.inj hright).2
      exact ⟨rfl, hr⟩
    | _ => cases htree

end Text

/-- What is read is a text that fits, and what follows is left alone. -/
def Goal.Written (g : Goal G) (ts : List (Token G)) (T : Tree G) (rest : List (Token G)) : Prop :=
  match g with
  | .expr n => ∃ t : Text G, t.Fits ∧ t.lead n = true ∧ t.tree = T ∧ ts = t.tokens ++ rest ∧ Next (· < n) rest ∧
      Next (fun k => t.yields k = true) rest
  | .rest n u => ∀ s : Text G, s.tree = u → s.Fits → s.lead n = true → Next (fun k => s.yields k = true) ts →
      ∃ t : Text G, t.Fits ∧ t.lead n = true ∧ t.tree = T ∧ s.tokens ++ ts = t.tokens ++ rest ∧ Next (· < n) rest ∧
        Next (fun k => t.yields k = true) rest

theorem Reads.written {g : Goal G} {rest : List (Token G)} {T : Tree G} (h : Reads g ts T rest) : g.Written ts T rest := by
  induction h with
  | @atom n a ts t rest _ ih =>
    obtain ⟨t, ht, hl, hT, hts, hnext⟩ := ih (.atom a) rfl trivial rfl (fun _ _ => rfl)
    exact ⟨t, ht, hl, hT, hts, hnext⟩
  | @closed n f ts u ts' t rest _ _ ih₁ ih₂ =>
    obtain ⟨s, hs, -, rfl, rfl, -⟩ := ih₁
    obtain ⟨t, ht, hl, hT, hts, hnext⟩ := ih₂ (.closed f s) rfl hs rfl (fun _ _ => rfl)
    exact ⟨t, ht, hl, hT, by simpa [Text.tokens] using hts, hnext⟩
  | @paren n ts u ts' t rest _ _ ih₁ ih₂ =>
    obtain ⟨s, hs, -, rfl, rfl, -⟩ := ih₁
    obtain ⟨t, ht, hl, hT, hts, hnext⟩ := ih₂ (.paren s) rfl hs rfl (fun _ _ => rfl)
    exact ⟨t, ht, hl, hT, by simpa [Text.tokens] using hts, hnext⟩
  | @pre n o ts u ts' t rest hn _ _ ih₁ ih₂ =>
    obtain ⟨s, hs, hlead, rfl, rfl, hlt, hyields⟩ := ih₁
    have hnext : Next (fun k => (Text.pre o s).yields k = true) ts' := by
      intro k hk
      simp only [Text.yields, Bool.and_eq_true, decide_eq_true_eq]
      exact ⟨hlt k hk, hyields k hk⟩
    obtain ⟨t, ht, hl, hT, hts, hnext⟩ := ih₂ (.pre o s) rfl ⟨hlead, hs⟩ (decide_eq_true hn) hnext
    exact ⟨t, ht, hl, hT, hts, hnext⟩
  | stop hstop => exact fun s hs hf hl hnext => ⟨s, hf, hl, hs, rfl, hstop, hnext⟩
  | @post n u o ts t rest hn hcap _ ih =>
    intro s hs hf hl hnext
    subst hs
    have hnext' : Next (fun k => (Text.post o s).yields k = true) ts := hcap.imp fun k hk => decide_eq_true hk
    obtain ⟨t, ht, hl, hT, hts, hnext⟩ := ih (.post o s) rfl ⟨hnext _ rfl, hf⟩ (by simp [Text.lead, hn, hl]) hnext'
    exact ⟨t, ht, hl, hT, by simpa [Text.tokens] using hts, hnext⟩
  | @brk n u o ts c ts' t rest hn _ hcap _ ih₁ ih₂ =>
    intro s hs hf hl hnext
    subst hs
    obtain ⟨c, hc, -, rfl, rfl, -⟩ := ih₁
    have hnext' : Next (fun k => (Text.brk o s c).yields k = true) ts' := hcap.imp fun k hk => decide_eq_true hk
    obtain ⟨t, ht, hl, hT, hts, hnext⟩ :=
      ih₂ (.brk o s c) rfl ⟨⟨hnext _ rfl, hf⟩, hc⟩ (by simp [Text.lead, hn, hl]) hnext'
    exact ⟨t, ht, hl, hT, by simpa [Text.tokens] using hts, hnext⟩
  | @bin n u o ts r ts' t rest hn _ _ ih₁ ih₂ =>
    intro s hs hf hl hnext
    subst hs
    obtain ⟨r, hr, hrl, rfl, rfl, hlt, hyields⟩ := ih₁
    have hnext' : Next (fun k => (Text.bin o s r).yields k = true) ts' := by
      intro k hk
      simp only [Text.yields, Bool.and_eq_true, decide_eq_true_eq]
      exact ⟨hlt k hk, hyields k hk⟩
    obtain ⟨t, ht, hl, hT, hts, hnext⟩ :=
      ih₂ (.bin o s r) rfl ⟨⟨hnext _ rfl, hf⟩, hrl, hr⟩ (by simp [Text.lead, hn, hl]) hnext'
    exact ⟨t, ht, hl, hT, by simpa [Text.tokens] using hts, hnext⟩
  | @tern n u o ts m ts' r ts'' t rest hn _ _ _ ih₁ ih₂ ih₃ =>
    intro s hs hf hl hnext
    subst hs
    obtain ⟨m, hm, hml, rfl, rfl, -, hmy⟩ := ih₁
    obtain ⟨r, hr, hrl, rfl, rfl, hlt, hyields⟩ := ih₂
    have hnext' : Next (fun k => (Text.tern o s m r).yields k = true) ts'' := by
      intro k hk
      simp only [Text.yields, Bool.and_eq_true, decide_eq_true_eq]
      exact ⟨hlt k hk, hyields k hk⟩
    obtain ⟨t, ht, hl, hT, hts, hnext⟩ :=
      ih₃ (.tern o s m r) rfl ⟨⟨hnext _ rfl, hf⟩, ⟨hml, hmy _ rfl, hm⟩, hrl, hr⟩ (by simp [Text.lead, hn, hl]) hnext'
    exact ⟨t, ht, hl, hT, by simpa [Text.tokens] using hts, hnext⟩

/-- A text is read as the tree it was written for if and only if it fits. -/
theorem Text.reads_iff_fits {t : Text G} : Reads (.expr 0) t.tokens t.tree [] ↔ t.Fits := by
  constructor
  · intro h
    obtain ⟨t', ht', -, htree, htokens, -⟩ := h.written
    obtain ⟨rfl, -⟩ := eq_of_tokens (r := []) htree.symm (by rw [List.append_nil]; exact htokens)
    exact ht'
  · exact reads_of_fits

end Mixfix
