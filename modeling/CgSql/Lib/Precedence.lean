import Mathlib.Tactic.Common

/-!
# Texts of operator expressions

Trees of prefix operators, left-associative binary operators with precedences, and calls of functions of two arguments; the texts
that denote them, with parentheses; and the way such a text is read by precedence. A text is read as the tree it was written for if
and only if its parentheses stand where the precedences need them.
-/

namespace Precedence

variable {n : Nat}

/-- Trees over atoms `A`, prefix operators `U`, binary operators `B` and functions `F`. -/
inductive Tree (A U B F : Type)
  | atom (a : A)
  | unary (op : U) (t : Tree A U B F)
  | binary (op : B) (l r : Tree A U B F)
  | call (f : F) (l r : Tree A U B F)
  deriving DecidableEq

/-- A tree as it is written, with parentheses. -/
inductive Text (A U B F : Type)
  | atom (a : A)
  | unary (op : U) (t : Text A U B F)
  | binary (op : B) (l r : Text A U B F)
  | call (f : F) (l r : Text A U B F)
  | paren (t : Text A U B F)
  deriving DecidableEq

inductive Token (A U B F : Type)
  | atom (a : A)
  | unary (op : U)
  | binary (op : B)
  | function (f : F)
  | lparen
  | rparen
  | comma
  deriving DecidableEq

variable {A U B F : Type}

/-! ## Texts -/

namespace Text

variable {prec : B → Nat}

/-- The tree that a text was written for. -/
def tree : Text A U B F → Tree A U B F
  | atom a => .atom a
  | unary op t => .unary op t.tree
  | binary op l r => .binary op l.tree r.tree
  | call f l r => .call f l.tree r.tree
  | paren t => t.tree

def tokens : Text A U B F → List (Token A U B F)
  | atom a => [.atom a]
  | unary op t => .unary op :: t.tokens
  | binary op l r => l.tokens ++ .binary op :: r.tokens
  | call f l r => .function f :: .lparen :: (l.tokens ++ .comma :: (r.tokens ++ [.rparen]))
  | paren t => .lparen :: (t.tokens ++ [.rparen])

/-- A text that binds as tightly as `n`: nothing looser stands outside of parentheses. -/
def binds (prec : B → Nat) (n : Nat) : Text A U B F → Bool
  | binary op _ _ => n ≤ prec op
  | _ => true

/-- A text that is no binary operator. -/
def isPrefix : Text A U B F → Bool
  | binary _ _ _ => false
  | _ => true

/-- Every operand binds as tightly as its operator needs. -/
def Fits (prec : B → Nat) : Text A U B F → Prop
  | atom _ => True
  | unary _ t => t.isPrefix = true ∧ t.Fits prec
  | binary op l r => (l.binds prec (prec op) = true ∧ l.Fits prec) ∧ r.binds prec (prec op + 1) = true ∧ r.Fits prec
  | call _ l r => l.Fits prec ∧ r.Fits prec
  | paren t => t.Fits prec

theorem binds_of_isPrefix {t : Text A U B F} (h : t.isPrefix = true) (n : Nat) : t.binds prec n = true := by
  cases t <;> first | rfl | cases h

theorem binds_zero (t : Text A U B F) : t.binds prec 0 = true := by
  cases t <;> simp [binds]

theorem binds_mono {m n : Nat} (hmn : m ≤ n) {t : Text A U B F} (h : t.binds prec n = true) : t.binds prec m = true := by
  cases t <;> first | rfl | (simp only [binds, decide_eq_true_eq] at h ⊢; omega)

end Text

/-! ## Reading -/

/-- What is being read: an expression of operators from precedence `n` on, an operand, or what follows the left operand `u`. -/
inductive Goal (A U B F : Type)
  | expr (n : Nat)
  | operand
  | rest (n : Nat) (u : Tree A U B F)

/-- The operators that may come next are looser than `n`. -/
def Stops (prec : B → Nat) (n : Nat) (ts : List (Token A U B F)) : Prop := ∀ op ts', ts = .binary op :: ts' → prec op < n

/-- Tokens are read as a tree, up to the rest of them. -/
inductive Reads (prec : B → Nat) : Goal A U B F → List (Token A U B F) → Tree A U B F → List (Token A U B F) → Prop
  | expr {n ts u ts' t rest} : Reads prec .operand ts u ts' → Reads prec (.rest n u) ts' t rest → Reads prec (.expr n) ts t rest
  | atom {a ts} : Reads prec .operand (.atom a :: ts) (.atom a) ts
  | unary {op ts t rest} : Reads prec .operand ts t rest → Reads prec .operand (.unary op :: ts) (.unary op t) rest
  | paren {ts t rest} : Reads prec (.expr 0) ts t (.rparen :: rest) → Reads prec .operand (.lparen :: ts) t rest
  | call {f ts l ts' r rest} : Reads prec (.expr 0) ts l (.comma :: ts') → Reads prec (.expr 0) ts' r (.rparen :: rest) →
      Reads prec .operand (.function f :: .lparen :: ts) (.call f l r) rest
  | stop {n u ts} : Stops prec n ts → Reads prec (.rest n u) ts u ts
  | step {n u op ts r ts' t rest} : n ≤ prec op → Reads prec (.expr (prec op + 1)) ts r ts' →
      Reads prec (.rest n (.binary op u r)) ts' t rest → Reads prec (.rest n u) (.binary op :: ts) t rest

variable {prec : B → Nat} {ts : List (Token A U B F)}

theorem Stops.nil : Stops (A := A) (U := U) (F := F) prec n [] := nofun

theorem Stops.rparen : Stops prec n (.rparen :: ts) := nofun

theorem Stops.comma : Stops prec n (.comma :: ts) := nofun

namespace Text

/-- What may follow a text: no operator that is tighter than its own. -/
def Follows (prec : B → Nat) (t : Text A U B F) (ts : List (Token A U B F)) : Prop :=
  match t with
  | binary op _ _ => Stops prec (prec op + 1) ts
  | _ => True

theorem follows_of_stops {t : Text A U B F} {n : Nat} (h : Stops prec (n + 1) ts) (ht : t.binds prec n = true) : t.Follows prec ts := by
  cases t with
  | binary op l r =>
    intro op' ts' he
    have := h op' ts' he
    have := of_decide_eq_true ht
    omega
  | _ => trivial

/-- A text that fits is read as its tree: as an operand, unless it is a binary operator, and as the start of an expression. -/
theorem reads_aux : ∀ {t : Text A U B F}, t.Fits prec → ∀ ts : List (Token A U B F),
    (t.isPrefix = true → Reads prec .operand (t.tokens ++ ts) t.tree ts) ∧
      ∀ {n T rest}, t.binds prec n = true → t.Follows prec ts → Reads prec (.rest n t.tree) ts T rest →
        Reads prec (.expr n) (t.tokens ++ ts) T rest
  | atom a, _, ts => ⟨fun _ => .atom, fun _ _ h => .expr .atom h⟩
  | unary op t, hf, ts => by
    have h : Reads prec .operand (.unary op :: (t.tokens ++ ts)) (.unary op t.tree) ts := .unary ((reads_aux hf.2 ts).1 hf.1)
    exact ⟨fun _ => h, fun _ _ h' => .expr h h'⟩
  | paren t, hf, ts => by
    have h : Reads prec .operand (.lparen :: (t.tokens ++ .rparen :: ts)) t.tree ts :=
      .paren ((reads_aux (t := t) hf (.rparen :: ts)).2 (binds_zero t) (follows_of_stops Stops.rparen (binds_zero t)) (.stop Stops.rparen))
    have h : Reads prec .operand ((paren t).tokens ++ ts) t.tree ts := by simpa [tokens] using h
    exact ⟨fun _ => h, fun _ _ h' => .expr h h'⟩
  | call f l r, hf, ts => by
    have h : Reads prec .operand (.function f :: .lparen :: (l.tokens ++ .comma :: (r.tokens ++ .rparen :: ts))) (.call f l.tree r.tree) ts :=
      .call ((reads_aux (t := l) hf.1 _).2 (binds_zero l) (follows_of_stops Stops.comma (binds_zero l)) (.stop Stops.comma))
        ((reads_aux (t := r) hf.2 _).2 (binds_zero r) (follows_of_stops Stops.rparen (binds_zero r)) (.stop Stops.rparen))
    have h : Reads prec .operand ((call f l r).tokens ++ ts) (.call f l.tree r.tree) ts := by simpa [tokens] using h
    exact ⟨fun _ => h, fun _ _ h' => .expr h h'⟩
  | binary op l r, hf, ts => by
    refine ⟨nofun, fun {n T rest} hn hts h => ?_⟩
    have hn : n ≤ prec op := of_decide_eq_true hn
    have hr : Reads prec (.expr (prec op + 1)) (r.tokens ++ ts) r.tree ts :=
      (reads_aux hf.2.2 ts).2 hf.2.1 (follows_of_stops (fun op' ts' he => Nat.lt_succ_of_lt (hts op' ts' he)) hf.2.1) (.stop hts)
    have hl : l.Follows prec (.binary op :: (r.tokens ++ ts)) := by
      refine follows_of_stops (n := prec op) (fun op' ts' he => ?_) hf.1.1
      cases he
      exact Nat.lt_succ_self _
    have h := (reads_aux hf.1.2 (.binary op :: (r.tokens ++ ts))).2 (binds_mono hn hf.1.1) hl (.step hn hr h)
    simpa [tokens] using h

/-- A text that fits is read as the tree it was written for. -/
theorem reads_of_fits {t : Text A U B F} (h : t.Fits prec) : Reads prec (.expr 0) t.tokens t.tree [] := by
  have h := (reads_aux h []).2 (binds_zero t) (follows_of_stops Stops.nil (binds_zero t)) (.stop Stops.nil)
  rwa [List.append_nil] at h

end Text

/-! ## Parentheses -/

/-- The number of atoms, operators and functions of a tree. -/
def Tree.size : Tree A U B F → Nat
  | .atom _ => 1
  | .unary _ t => t.size + 1
  | .binary _ l r => l.size + r.size + 1
  | .call _ l r => l.size + r.size + 1

def Token.isWord : Token A U B F → Bool
  | .lparen | .rparen | .comma => false
  | _ => true

/-- What follows the parenthesis that closes the one before, after `k` that are closed first. -/
def afterClosing : Nat → List (Token A U B F) → List (Token A U B F)
  | _, [] => []
  | 0, .rparen :: ts => ts
  | k + 1, .rparen :: ts => afterClosing k ts
  | k, .lparen :: ts => afterClosing (k + 1) ts
  | k, .atom _ :: ts | k, .unary _ :: ts | k, .binary _ :: ts | k, .function _ :: ts | k, .comma :: ts => afterClosing k ts

namespace Text

variable {t : Text A U B F} {r : List (Token A U B F)}

theorem countP_tokens (t : Text A U B F) : t.tokens.countP Token.isWord = t.tree.size := by
  induction t <;> simp_all [tokens, tree, Tree.size, Token.isWord, List.countP_cons, Nat.add_assoc]

theorem afterClosing_tokens (t : Text A U B F) : ∀ k ts, afterClosing k (t.tokens ++ ts) = afterClosing k ts := by
  induction t <;> simp_all [tokens, afterClosing]

/-- What stands between two parentheses is found from the first. -/
theorem tokens_closing {s : Text A U B F} {x y : List (Token A U B F)}
    (h : s.tokens ++ .rparen :: x = t.tokens ++ .rparen :: y) : s.tokens = t.tokens := by
  have hxy := congrArg (afterClosing 0) h
  rw [afterClosing_tokens, afterClosing_tokens] at hxy
  obtain rfl : x = y := hxy
  exact List.append_cancel_right h

/-- A parenthesis at the start of a text is around all of it or around a smaller text. -/
theorem starts_lparen (h : .lparen :: ts = t.tokens ++ r) :
    (∃ s, t = paren s) ∨ ∃ p y, ts = tokens p ++ .rparen :: y ∧ p.tree.size < t.tree.size := by
  induction t generalizing r with
  | atom | unary | call => cases h
  | paren t => exact .inl ⟨t, rfl⟩
  | binary op l r' ihl _ =>
    have h : .lparen :: ts = l.tokens ++ (.binary op :: (r'.tokens ++ r)) := by simpa [tokens] using h
    refine .inr ?_
    obtain ⟨s, rfl⟩ | ⟨p, y, hts, hp⟩ := ihl h
    · refine ⟨s, .binary op :: (r'.tokens ++ r), ?_, ?_⟩
      · simpa [tokens] using h
      · simp only [tree, Tree.size]
        omega
    · refine ⟨p, y, hts, ?_⟩
      simp only [tree, Tree.size]
      omega

/-- Texts of one tree that start with the same tokens are both in parentheses or neither is. -/
theorem eq_paren {s : Text A U B F} {r' : List (Token A U B F)} (h : (paren s).tokens ++ r = t.tokens ++ r')
    (htree : s.tree = t.tree) : ∃ t', t = paren t' := by
  have h : .lparen :: (s.tokens ++ .rparen :: r) = t.tokens ++ r' := by simpa [tokens] using h
  obtain ht | ⟨p, y, hp, hlt⟩ := starts_lparen h
  · exact ht
  · have := congrArg (List.countP Token.isWord) (tokens_closing hp)
    rw [countP_tokens, countP_tokens, htree] at this
    omega

/-- A text is given by its tree and its tokens. -/
theorem eq_of_tokens {t' : Text A U B F} {r' : List (Token A U B F)} (htree : t.tree = t'.tree)
    (h : t.tokens ++ r = t'.tokens ++ r') : t = t' ∧ r = r' := by
  induction t generalizing t' r r' with
  | paren s ih =>
    obtain ⟨s', rfl⟩ := eq_paren h htree
    have h : s.tokens ++ .rparen :: r = s'.tokens ++ .rparen :: r' := by simpa [tokens] using h
    have hs : s = s' ∧ _ := ih htree h
    obtain ⟨rfl, hr⟩ := hs
    exact ⟨rfl, (List.cons.inj hr).2⟩
  | atom a =>
    cases t' with
    | paren s' => exact absurd (eq_paren h.symm htree.symm) nofun
    | atom b =>
      cases htree
      exact ⟨rfl, (List.cons.inj h).2⟩
    | _ => cases htree
  | unary op s ih =>
    cases t' with
    | paren s' => exact absurd (eq_paren h.symm htree.symm) nofun
    | unary op' s' =>
      obtain ⟨rfl, hs⟩ := Tree.unary.inj htree
      obtain ⟨rfl, hr⟩ := ih hs (List.cons.inj h).2
      exact ⟨rfl, hr⟩
    | _ => cases htree
  | binary op l s ihl ihs =>
    cases t' with
    | paren s' => exact absurd (eq_paren h.symm htree.symm) nofun
    | binary op' l' s' =>
      obtain ⟨rfl, hl, hs⟩ := Tree.binary.inj htree
      have h : l.tokens ++ (.binary op :: (s.tokens ++ r)) = l'.tokens ++ (.binary op :: (s'.tokens ++ r')) := by
        simpa [tokens] using h
      obtain ⟨rfl, hright⟩ := ihl hl h
      obtain ⟨rfl, hr⟩ := ihs hs (List.cons.inj hright).2
      exact ⟨rfl, hr⟩
    | _ => cases htree
  | call f l s ihl ihs =>
    cases t' with
    | paren s' => exact absurd (eq_paren h.symm htree.symm) nofun
    | call f' l' s' =>
      obtain ⟨rfl, hl, hs⟩ := Tree.call.inj htree
      have h : l.tokens ++ (.comma :: (s.tokens ++ .rparen :: r)) = l'.tokens ++ (.comma :: (s'.tokens ++ .rparen :: r')) := by
        simpa [tokens] using h
      obtain ⟨rfl, hright⟩ := ihl hl h
      obtain ⟨rfl, hr⟩ := ihs hs (List.cons.inj hright).2
      exact ⟨rfl, (List.cons.inj hr).2⟩
    | _ => cases htree

end Text

/-- What is read is a text that fits. -/
def Goal.Written (prec : B → Nat) (g : Goal A U B F) (ts : List (Token A U B F)) (T : Tree A U B F) (rest : List (Token A U B F)) : Prop :=
  match g with
  | .operand => ∃ t : Text A U B F, t.Fits prec ∧ t.isPrefix = true ∧ t.tree = T ∧ ts = t.tokens ++ rest
  | .expr n => ∃ t : Text A U B F, t.Fits prec ∧ t.binds prec n = true ∧ t.tree = T ∧ ts = t.tokens ++ rest ∧ Stops prec n rest
  | .rest n u => ∀ s : Text A U B F, s.tree = u → s.Fits prec → s.binds prec n = true → s.Follows prec ts →
      ∃ t : Text A U B F, t.Fits prec ∧ t.binds prec n = true ∧ t.tree = T ∧ s.tokens ++ ts = t.tokens ++ rest ∧ Stops prec n rest

variable {g : Goal A U B F} {rest : List (Token A U B F)} {T : Tree A U B F}

theorem Reads.written (h : Reads prec g ts T rest) : g.Written prec ts T rest := by
  induction h with
  | expr _ _ ih₁ ih₂ =>
    obtain ⟨s, hs, hp, hT, rfl⟩ := ih₁
    refine ih₂ s hT hs (Text.binds_of_isPrefix hp _) ?_
    cases s <;> trivial
  | @atom a _ => exact ⟨.atom a, trivial, rfl, rfl, rfl⟩
  | @unary op _ _ _ _ ih =>
    obtain ⟨s, hs, hp, rfl, rfl⟩ := ih
    exact ⟨.unary op s, ⟨hp, hs⟩, rfl, rfl, rfl⟩
  | paren _ ih =>
    obtain ⟨s, hs, -, rfl, rfl, -⟩ := ih
    exact ⟨.paren s, hs, rfl, rfl, by simp [Text.tokens]⟩
  | @call f _ _ _ _ _ _ _ ih₁ ih₂ =>
    obtain ⟨l, hl, -, rfl, rfl, -⟩ := ih₁
    obtain ⟨r, hr, -, rfl, rfl, -⟩ := ih₂
    exact ⟨.call f l r, ⟨hl, hr⟩, rfl, rfl, by simp [Text.tokens]⟩
  | stop hstop => exact fun s hs hf hb _ => ⟨s, hf, hb, hs, rfl, hstop⟩
  | @step n u op ts r ts' t rest hn _ _ ih₁ ih₂ =>
    intro s hs hf _ hfollows
    obtain ⟨r, hr, hrb, rfl, rfl, hstop⟩ := ih₁
    have hsb : s.binds prec (prec op) = true := by
      cases s with
      | binary op' l r' => exact decide_eq_true (Nat.lt_succ_iff.mp (hfollows op _ rfl))
      | _ => rfl
    subst hs
    obtain ⟨t, ht, hb, hT, hts, hstop⟩ := ih₂ (.binary op s r) rfl ⟨⟨hsb, hf⟩, hrb, hr⟩ (decide_eq_true hn) hstop
    exact ⟨t, ht, hb, hT, by simpa [Text.tokens] using hts, hstop⟩

/-- A text is read as the tree it was written for if and only if it fits. -/
theorem Text.reads_iff_fits {t : Text A U B F} : Reads prec (.expr 0) t.tokens t.tree [] ↔ t.Fits prec := by
  constructor
  · intro h
    obtain ⟨t', ht', -, htree, htokens, -⟩ := h.written
    obtain ⟨rfl, -⟩ := eq_of_tokens (r := []) htree.symm (by rw [List.append_nil]; exact htokens)
    exact ht'
  · exact reads_of_fits

/-! ## A reader -/

/-- Read with at most `fuel` nested steps. -/
def parse (prec : B → Nat) : Nat → Goal A U B F → List (Token A U B F) → Option (Tree A U B F × List (Token A U B F))
  | 0, _, _ => none
  | fuel + 1, .expr n, ts => do
    let (u, ts') ← parse prec fuel .operand ts
    parse prec fuel (.rest n u) ts'
  | fuel + 1, .operand, ts =>
    match ts with
    | .atom a :: ts => some (.atom a, ts)
    | .unary op :: ts => do
      let (t, rest) ← parse prec fuel .operand ts
      return (.unary op t, rest)
    | .lparen :: ts => do
      match ← parse prec fuel (.expr 0) ts with
      | (t, .rparen :: rest) => some (t, rest)
      | _ => none
    | .function f :: .lparen :: ts => do
      match ← parse prec fuel (.expr 0) ts with
      | (l, .comma :: ts') =>
        match ← parse prec fuel (.expr 0) ts' with
        | (r, .rparen :: rest) => some (.call f l r, rest)
        | _ => none
      | _ => none
    | _ => none
  | fuel + 1, .rest n u, ts =>
    match ts with
    | .binary op :: ts' =>
      if n ≤ prec op then do
        let (r, ts'') ← parse prec fuel (.expr (prec op + 1)) ts'
        parse prec fuel (.rest n (.binary op u r)) ts''
      else some (u, ts)
    | _ => some (u, ts)

/-- The steps that suffice for what is read of `k` tokens. -/
def Goal.fuel (g : Goal A U B F) (k : Nat) : Nat :=
  match g with
  | .expr _ => 2 * k + 2
  | .operand => 2 * k
  | .rest _ _ => 2 * k + 1

/-- The tokens that are read come first. -/
theorem Reads.length_le (h : Reads prec g ts T rest) : rest.length + (match g with | .rest _ _ => 0 | _ => 1) ≤ ts.length := by
  induction h with
  | expr _ _ ih₁ ih₂ => simp only at ih₁ ih₂ ⊢; omega
  | atom | stop => simp
  | unary _ ih => simp only [List.length_cons] at ih ⊢; omega
  | paren _ ih => simp only [List.length_cons] at ih ⊢; omega
  | call _ _ ih₁ ih₂ => simp only [List.length_cons] at ih₁ ih₂ ⊢; omega
  | step _ _ _ ih₁ ih₂ => simp only [List.length_cons] at ih₁ ih₂ ⊢; omega

/-- The reader finds what can be read. -/
theorem Reads.parse_eq (h : Reads prec g ts T rest) :
    ∀ fuel, g.fuel (ts.length - rest.length) ≤ fuel → parse prec fuel g ts = some (T, rest) := by
  induction h with
  | expr h₁ h₂ ih₁ ih₂ =>
    rintro (_ | fuel) hf
    · cases hf
    have hl₁ := h₁.length_le
    have hl₂ := h₂.length_le
    simp only [Goal.fuel] at hf hl₁ hl₂ ih₁ ih₂
    simp only [parse, ih₁ fuel (by omega), Option.bind_eq_bind, Option.bind_some, ih₂ fuel (by omega)]
  | atom =>
    rintro (_ | fuel) hf
    · simp [Goal.fuel] at hf
    · rfl
  | unary h ih =>
    rintro (_ | fuel) hf
    · simp only [Goal.fuel, List.length_cons] at hf
      have hl := h.length_le
      simp only at hl
      omega
    have hl := h.length_le
    simp only [Goal.fuel, List.length_cons] at hf hl ih
    simp only [parse, ih fuel (by omega), Option.bind_eq_bind, Option.bind_some]
    rfl
  | paren h ih =>
    have hl := h.length_le
    simp only [List.length_cons] at hl
    rintro (_ | fuel) hf
    · simp only [Goal.fuel, List.length_cons] at hf
      omega
    simp only [Goal.fuel, List.length_cons] at hf ih
    simp only [parse, ih fuel (by omega), Option.bind_eq_bind, Option.bind_some]
  | call h₁ h₂ ih₁ ih₂ =>
    have hl₁ := h₁.length_le
    have hl₂ := h₂.length_le
    simp only [List.length_cons] at hl₁ hl₂
    rintro (_ | fuel) hf
    · simp only [Goal.fuel, List.length_cons] at hf
      omega
    simp only [Goal.fuel, List.length_cons] at hf ih₁ ih₂
    simp only [parse, ih₁ fuel (by omega), Option.bind_eq_bind, Option.bind_some, ih₂ fuel (by omega)]
  | @stop n u ts hs =>
    rintro (_ | fuel) hf
    · simp [Goal.fuel] at hf
    cases ts with
    | nil => rfl
    | cons t ts =>
      cases t with
      | binary op => simp only [parse, if_neg (Nat.not_le.mpr (hs op ts rfl))]
      | _ => rfl
  | step hn h₁ h₂ ih₁ ih₂ =>
    have hl₁ := h₁.length_le
    have hl₂ := h₂.length_le
    simp only at hl₁ hl₂
    rintro (_ | fuel) hf
    · simp [Goal.fuel] at hf
    simp only [Goal.fuel, List.length_cons] at hf ih₁ ih₂
    simp only [parse, if_pos hn, ih₁ fuel (by omega), Option.bind_eq_bind, Option.bind_some, ih₂ fuel (by omega)]

/-- What a text is read as. -/
def Text.read (prec : B → Nat) (t : Text A U B F) : Option (Tree A U B F) :=
  match parse prec (2 * t.tokens.length + 2) (.expr 0) t.tokens with
  | some (T, []) => some T
  | _ => none

theorem Text.read_of_fits {t : Text A U B F} (h : t.Fits prec) : t.read prec = some t.tree := by
  rw [Text.read, (reads_of_fits h).parse_eq _ (by simp [Goal.fuel])]

end Precedence
