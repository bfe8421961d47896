import ScriptTree.ParseError
import ScriptTree.Token.Basic

/-!
# Reading from a token stream

A token stream is the list of the tokens to come, without the end of the input;
its current token is the first of them (`current`).  Reading ends with a value or
with an error, and in either case tells which tokens are left (`Reading`).

A `Reader` takes at least one token whenever it succeeds.  This is what lets
`Reader.repeated` go on for as long as there is something to read.
-/

namespace ScriptTree

/-- The token that a reader looks at. -/
def current (ts : List Token) : Token := ts.headD Token.eof

/-- How reading ends: with a value or an error, and the tokens not yet taken. -/
inductive Reading (α : Type)
  | ok (value : α) (rest : List Token)
  | error (e : ParseError) (rest : List Token)
  deriving DecidableEq, Repr

namespace Reading

variable {α β : Type}

def bind : Reading α → (α → List Token → Reading β) → Reading β
  | ok a rest, f => f a rest
  | error e rest, _ => error e rest

def map (f : α → β) : Reading α → Reading β
  | ok a rest => ok (f a) rest
  | error e rest => error e rest

theorem bind_eq_ok_iff {r : Reading α} {f : α → List Token → Reading β} {b : β}
    {ts : List Token} : r.bind f = ok b ts ↔ ∃ a mid, r = ok a mid ∧ f a mid = ok b ts := by
  cases r with
  | ok a mid => exact ⟨fun h => ⟨a, mid, rfl, h⟩, fun ⟨_, _, hr, h⟩ => by cases hr; exact h⟩
  | error e mid => simp [bind]

theorem map_eq_ok_iff {f : α → β} {r : Reading α} {b : β} {ts : List Token} :
    r.map f = ok b ts ↔ ∃ a, r = ok a ts ∧ f a = b := by
  cases r with
  | ok a mid =>
    constructor
    · intro h
      cases h
      exact ⟨a, rfl, rfl⟩
    · rintro ⟨_, hr, rfl⟩
      cases hr
      rfl
  | error e mid => simp [map]

theorem bind_eq_error_iff {r : Reading α} {f : α → List Token → Reading β} {e : ParseError}
    {ts : List Token} :
    r.bind f = error e ts ↔ r = error e ts ∨ ∃ a mid, r = ok a mid ∧ f a mid = error e ts := by
  cases r with
  | ok a mid =>
    constructor
    · intro h
      exact Or.inr ⟨a, mid, rfl, h⟩
    · rintro (h | ⟨_, _, hr, h⟩)
      · cases h
      · cases hr
        exact h
  | error e' mid => simp [bind]

theorem map_eq_error_iff {f : α → β} {r : Reading α} {e : ParseError} {ts : List Token} :
    r.map f = error e ts ↔ r = error e ts := by
  cases r <;> simp [map]

end Reading

/-- A reading that takes at least one token when it succeeds. -/
structure Reader (α : Type) where
  read : List Token → Reading α
  progress : ∀ {ts rest : List Token} {a : α}, read ts = .ok a rest → rest.length < ts.length

namespace Reader

variable {α β : Type}

/-- Refuses whatever stands ahead and takes nothing. -/
def refuse (e : ParseError) : Reader α where
  read ts := .error e ts
  progress h := by cases h

/-- Takes the current token if `accept?` answers, and otherwise leaves it. -/
def token (accept? : Token → Option α) (e : Token → ParseError) : Reader α where
  read
    | [] => .error (e Token.eof) []
    | t :: ts =>
      match accept? t with
      | some a => .ok a ts
      | none => .error (e t) (t :: ts)
  progress {ts rest a} h := by
    cases ts with
    | nil => cases h
    | cons t ts =>
      simp only at h
      split at h
      · cases h
        exact Nat.lt_succ_self _
      · cases h

/-- The current token must be of this kind; `what` says so if it is not. -/
def expect (kind : TokenKind) (what : String) : Reader Token :=
  token (fun t => if t.kind = kind then some t else none) fun t => .expected what t.describe

theorem expect_read_eq_ok_iff {kind : TokenKind} {what : String} {t : Token}
    {ts rest : List Token} :
    (expect kind what).read ts = .ok t rest ↔ ts = t :: rest ∧ t.kind = kind := by
  cases ts with
  | nil => simp [expect, token]
  | cons u ts =>
    by_cases hu : u.kind = kind
    · simp only [expect, token, hu, if_true, Reading.ok.injEq, List.cons.injEq]
      constructor
      · rintro ⟨rfl, rfl⟩
        exact ⟨⟨rfl, rfl⟩, hu⟩
      · rintro ⟨h, -⟩
        exact h
    · simp only [expect, token, hu, if_false, reduceCtorEq, List.cons.injEq, false_iff]
      rintro ⟨⟨rfl, rfl⟩, h⟩
      exact hu h

/-- Any other token is left, and reported in place of the one expected. -/
theorem expect_read_eq_error_iff {kind : TokenKind} {what : String} {e : ParseError}
    {ts rest : List Token} :
    (expect kind what).read ts = .error e rest ↔
      rest = ts ∧ e = .expected what (current ts).describe ∧ ∀ t ∈ ts.head?, t.kind ≠ kind := by
  cases ts with
  | nil =>
    simp only [expect, token, current, Reading.error.injEq]
    constructor
    · rintro ⟨rfl, rfl⟩
      exact ⟨rfl, rfl, by simp⟩
    · rintro ⟨rfl, rfl, -⟩
      exact ⟨rfl, rfl⟩
  | cons t ts =>
    by_cases ht : t.kind = kind
    · simp [expect, token, ht]
    · simp only [expect, token, current, ht, if_false, Reading.error.injEq]
      constructor
      · rintro ⟨rfl, rfl⟩
        exact ⟨rfl, rfl, by simpa using ht⟩
      · rintro ⟨rfl, rfl, -⟩
        exact ⟨rfl, rfl⟩

def map (f : α → β) (p : Reader α) : Reader β where
  read ts := (p.read ts).map f
  progress h := by
    obtain ⟨a, ha, -⟩ := Reading.map_eq_ok_iff.mp h
    exact p.progress ha

/-- What follows a successful reading may stop where that one stopped, or later. -/
def followedBy (p : Reader α) (f : α → List Token → Reading β)
    (hf : ∀ {a ts rest b}, f a ts = .ok b rest → rest.length ≤ ts.length) : Reader β where
  read ts := (p.read ts).bind f
  progress h := by
    obtain ⟨a, mid, ha, hb⟩ := Reading.bind_eq_ok_iff.mp h
    exact Nat.lt_of_le_of_lt (hf hb) (p.progress ha)

def bind (p : Reader α) (f : α → Reader β) : Reader β :=
  p.followedBy (fun a => (f a).read) fun h => Nat.le_of_lt ((f _).progress h)

theorem map_read (f : α → β) (p : Reader α) (ts : List Token) :
    (p.map f).read ts = (p.read ts).map f := rfl

theorem bind_read (p : Reader α) (f : α → Reader β) (ts : List Token) :
    (p.bind f).read ts = (p.read ts).bind fun a => (f a).read := rfl

/-- Reads items up to the end of the input or to a token at which to stop, which is
left. -/
def repeated (p : Reader α) (stop : Token → Bool) (ts : List Token) : Reading (List α) :=
  match ts with
  | [] => .ok [] []
  | t :: ts' =>
    if stop t then .ok [] (t :: ts')
    else
      match _ : p.read (t :: ts') with
      | .error e rest => .error e rest
      | .ok a rest => (repeated p stop rest).map (a :: ·)
termination_by ts.length
decreasing_by exact p.progress ‹_›

theorem repeated_nil (p : Reader α) (stop : Token → Bool) : p.repeated stop [] = .ok [] [] := by
  rw [repeated]

theorem repeated_stop (p : Reader α) {stop : Token → Bool} {t : Token} (ts : List Token)
    (h : stop t = true) : p.repeated stop (t :: ts) = .ok [] (t :: ts) := by
  rw [repeated, if_pos h]

theorem repeated_step (p : Reader α) {stop : Token → Bool} {t : Token} (ts : List Token)
    (h : stop t = false) :
    p.repeated stop (t :: ts) =
      (p.read (t :: ts)).bind fun a rest => (p.repeated stop rest).map (a :: ·) := by
  rw [repeated, if_neg (by simp [h])]
  split
  · next hr => rw [hr, Reading.bind]
  · next hr => rw [hr, Reading.bind]

theorem length_le_of_repeated {p : Reader α} {stop : Token → Bool} {ts rest : List Token}
    {as : List α} (h : p.repeated stop ts = .ok as rest) : rest.length ≤ ts.length := by
  fun_induction repeated p stop ts generalizing as with
  | case1 => cases h; exact Nat.le_refl _
  | case2 => cases h; exact Nat.le_refl _
  | case3 => cases h
  | case4 t ts' _ a mid hr ih =>
    obtain ⟨bs, hb, -⟩ := Reading.map_eq_ok_iff.mp h
    exact Nat.le_trans (ih hb) (Nat.le_of_lt (p.progress hr))

end Reader

end ScriptTree
