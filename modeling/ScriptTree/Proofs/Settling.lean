import ScriptTree.Proofs.Lookahead
import ScriptTree.Proofs.Resumption
import ScriptTree.Proofs.Spelling

/-!
# Settling

A parser that reads program after program comes to rest.

* A step takes a token or changes nothing (`Session.settled_or_shorter`), and what changes nothing
  goes on in the same way for good (`Session.Settled.parseTimes`).  So a session is at rest after
  as many programs as it has tokens ahead (`Session.settled_parseTimes`).
* Nothing is taken only at the end of the input, and where a statement should begin and cannot
  (`Session.Settled.result`).  Any other error takes a token before.
* A program takes all that is ahead, so that at most one of a session holds anything
  (`Session.pairwise_parseTimes`).
* `Parser.settles` says this of parsers.
-/

namespace ScriptTree

/-- No statement begins with this token. -/
def Token.BeginsNothing (t : Token) : Prop :=
  ∀ more phrase rest, ¬ SpellsPhrase (t :: more) phrase rest

namespace Reading

variable {α : Type} {ts : List Token} {e : ParseError}

theorem beginsNothing_of_opened? {t : Token} (hopened : opened? t.kind = none)
    (hoperand : t.operand? = none) : t.BeginsNothing := by
  intro more phrase rest hphrase
  have hbegins : phrase.BeginsWith t.kind := hphrase.beginsWith rest
  cases phrase with
  | binding kind =>
    rw [show t.kind = _ from hbegins, opened?_keyword] at hopened
    cases hopened
  | block =>
    rw [show t.kind = _ from hbegins] at hopened
    cases hopened
  | expression =>
    obtain ⟨k, hk⟩ := hbegins
    rw [Token.operand?_eq_some_iff.mpr ⟨k, hk, rfl⟩] at hoperand
    cases hoperand

/-! ## Errors before the first token -/

theorem LooksAhead.length_unread_le {read : List Token → Reading α} (h : LooksAhead read)
    (ts : List Token) : (read ts).unread.length ≤ ts.length := by
  obtain ⟨taken, htaken, -⟩ := h ts
  have hlength := congrArg List.length htaken
  rw [List.length_append] at hlength
  omega

/-- Where there is room, an expression takes a token unless there is no operand. -/
theorem climb_read_eq_error_self {room min : Nat}
    (h : (climb (room + 1) min).read ts = .error e ts) : operand.read ts = .error e ts := by
  rcases bind_eq_error_iff.mp h with hfirst | ⟨left, mid, hfirst, hchain⟩
  · exact hfirst
  · have hprogress := operand.progress hfirst
    have hle := (looksAhead_chain (looksAhead_climb room) min left).length_unread_le mid
    rw [hchain, unread] at hle
    omega

theorem expression_read_eq_error_self (h : expression.read ts = .error e ts) :
    operand.read ts = .error e ts :=
  climb_read_eq_error_self (map_eq_error_iff.mp h)

/-- A statement takes a token unless none begins with the token ahead. -/
theorem statement_read_eq_error_self (h : statement.read ts = .error e ts) :
    (∀ t ∈ ts.head?, t.BeginsNothing) ∧ e = .expectedPrimary (current ts).describe := by
  cases hopened : opened? (current ts).kind with
  | none =>
    simp only [statement, hopened] at h
    obtain ⟨-, he, hoperand⟩ := operand_read_eq_error_iff.mp (expression_read_eq_error_self h)
    refine ⟨?_, he⟩
    intro t ht
    obtain ⟨more, rfl⟩ := List.head?_eq_some_iff.mp ht
    exact beginsNothing_of_opened? hopened (hoperand t ht)
  | some reader =>
    cases ts with
    | nil => cases hopened
    | cons t ts =>
      simp only [statement, hopened, List.tail_cons] at h
      have hle := (looksAhead_opened? hopened).length_unread_le ts
      rw [h, unread, List.length_cons] at hle
      omega

/-- A program takes a token unless none begins with the token ahead. -/
theorem statements_eq_error_self (h : statements ts = .error e ts) :
    ∃ t more, ts = t :: more ∧ t.BeginsNothing ∧ e = .expectedPrimary t.describe := by
  cases ts with
  | nil =>
    rw [statements, Reader.repeated_nil] at h
    cases h
  | cons t ts =>
    rw [statements, Reader.repeated_step _ _ rfl] at h
    rcases bind_eq_error_iff.mp h with hfirst | ⟨n, mid, hfirst, hmore⟩
    · obtain ⟨hbegins, he⟩ := statement_read_eq_error_self hfirst
      exact ⟨t, ts, rfl, hbegins t rfl, he⟩
    · have hprogress := statement.progress hfirst
      have hle := looksAhead_statements.length_unread_le mid
      rw [statements, map_eq_error_iff.mp hmore, unread] at hle
      omega

end Reading

namespace Session

variable {s : Session} {r : Except ParseError Program}

/-! ## One step -/

theorem eq_of_ahead {s' : Session} (h : s.ahead = s'.ahead) : s = s' := by
  obtain ⟨ahead⟩ := s
  exact congrArg mk h

theorem parse_nil : parse ⟨[]⟩ = (.ok ⟨[]⟩, ⟨[]⟩) := by
  simp only [parse, Reading.statements, Reader.repeated_nil]

/-- A program takes all that is ahead. -/
theorem parse_snd_of_ok {p : Program} (h : s.parse.1 = .ok p) : s.parse.2 = ⟨[]⟩ := by
  have hread := parse_eq_ok_iff.mp h
  simp only [parse, hread]

/-- Reading a program gives this result and takes nothing. -/
def Settled (s : Session) (r : Except ParseError Program) : Prop := s.parse = (r, s)

theorem settled_or_shorter (s : Session) :
    s.Settled s.parse.1 ∨ s.parse.2.ahead.length < s.ahead.length := by
  have hsuffix := s.ahead_parse_suffix
  rcases Nat.lt_or_eq_of_le hsuffix.length_le with hlt | heq
  · exact Or.inr hlt
  · exact Or.inl (Prod.ext rfl (eq_of_ahead (hsuffix.eq_of_length heq)))

/-- What a session at rest comes to. -/
theorem Settled.result (h : s.Settled r) :
    r = .ok ⟨[]⟩ ∨ ∃ t ∈ s.ahead, t.BeginsNothing ∧ r = .error (.expectedPrimary t.describe) := by
  cases r with
  | ok p =>
    have hs : s.parse.2 = ⟨[]⟩ := parse_snd_of_ok (congrArg Prod.fst h)
    obtain rfl : s = ⟨[]⟩ := by rw [← hs, h]
    exact Or.inl (congrArg Prod.fst (h.symm.trans parse_nil))
  | error e =>
    obtain ⟨t, more, hahead, hbegins, rfl⟩ :=
      Reading.statements_eq_error_self (parse_eq_error_iff.mp h)
    exact Or.inr ⟨t, by rw [hahead]; simp, hbegins, rfl⟩

/-! ## Many steps -/

theorem parseTimes_succ (s : Session) (n : Nat) :
    s.parseTimes (n + 1) =
      (s.parse.1 :: (s.parse.2.parseTimes n).1, (s.parse.2.parseTimes n).2) := rfl

theorem Settled.parseTimes (h : s.Settled r) (n : Nat) :
    s.parseTimes n = (List.replicate n r, s) := by
  induction n with
  | zero => rfl
  | succ n ih => rw [parseTimes_succ, h, ih, List.replicate_succ]

theorem parseTimes_add (s : Session) (m n : Nat) :
    s.parseTimes (m + n) =
      ((s.parseTimes m).1 ++ ((s.parseTimes m).2.parseTimes n).1,
        ((s.parseTimes m).2.parseTimes n).2) := by
  induction m generalizing s with
  | zero => rw [Nat.zero_add]; rfl
  | succ m ih =>
    rw [Nat.succ_add, parseTimes_succ, ih]
    rfl

theorem ahead_parseTimes_suffix (s : Session) (n : Nat) : (s.parseTimes n).2.ahead <:+ s.ahead := by
  induction n generalizing s with
  | zero => exact List.suffix_refl _
  | succ n ih => exact (ih s.parse.2).trans s.ahead_parse_suffix

/-- **A session is at rest** after as many programs as it has tokens ahead. -/
theorem settled_parseTimes {n : Nat} (hn : s.ahead.length ≤ n) :
    ∃ r, (s.parseTimes n).2.Settled r := by
  induction n generalizing s with
  | zero =>
    have hnil : s.ahead = [] := List.eq_nil_of_length_eq_zero (Nat.le_zero.mp hn)
    obtain rfl : s = ⟨[]⟩ := eq_of_ahead hnil
    exact ⟨_, parse_nil⟩
  | succ n ih =>
    rcases s.settled_or_shorter with hsettled | hshorter
    · refine ⟨s.parse.1, ?_⟩
      rw [hsettled.parseTimes]
      exact hsettled
    · exact ih (s := s.parse.2) (by omega)

/-- Behind a program that holds anything, programs are empty. -/
theorem pairwise_parseTimes (s : Session) (n : Nat) :
    (s.parseTimes n).1.Pairwise fun earlier later =>
      ∀ p, earlier = .ok p → p.nodes ≠ [] → later = .ok ⟨[]⟩ := by
  induction n generalizing s with
  | zero => exact List.Pairwise.nil
  | succ n ih =>
    rw [parseTimes_succ]
    refine List.Pairwise.cons ?_ (ih s.parse.2)
    intro later hlater p hp _
    have hrest : Settled ⟨[]⟩ (.ok ⟨[]⟩) := parse_nil
    rw [parse_snd_of_ok hp, hrest.parseTimes] at hlater
    exact List.eq_of_mem_replicate hlater

end Session

namespace Parser

theorem Takes.eq_of_nil {p q : Parser} (h : Takes p [] q) : q = p := by
  generalize hts : ([] : List Token) = ts at h
  cases h with
  | nothing => rfl
  | token => cases hts

/-- A parser that takes nothing is at rest. -/
theorem settled_of_takes_nil {p : Parser} (h : Takes p [] p.parse.2) :
    Session.Settled ⟨p.unread⟩ p.parse.1 := by
  obtain ⟨hresult, hahead⟩ := parse_eq p
  rw [h.eq_of_nil] at hahead
  exact Prod.ext hresult.symm (Session.eq_of_ahead hahead.symm)

/-- **A parser comes to rest.**  From the program on that has as many before it as there were tokens
unread, all results are the same: they are the empty program, or the error at a token with which no
statement begins.  It is at rest as soon as it takes nothing, which no other error does.  A program
that holds anything is the only one, and is followed by empty ones. -/
theorem settles (s : Source) (skip : Nat) :
    let begun := ofSource (s.pull skip).2
    let unread := begun.unread
    (∃ last, (∀ more, (begun.parseTimes (unread.length + more)).1 =
          (begun.parseTimes unread.length).1 ++ List.replicate more last) ∧
        (last = .ok ⟨[]⟩ ∨ ∃ t ∈ unread, t.isEof = false ∧
          (∀ more phrase rest, ¬ SpellsPhrase (t :: more) phrase rest) ∧
          last = .error (.expectedPrimary t.describe))) ∧
      ∀ calls, let p := (begun.parseTimes calls).2
        (∃ taken, Takes p taken p.parse.2 ∧
          (taken = [] → ∀ more, (p.parse.2.parseTimes more).1 = List.replicate more p.parse.1) ∧
          ∀ e, p.parse.1 = .error e → (∀ found, e ≠ .expectedPrimary found) → taken ≠ []) ∧
        (begun.parseTimes calls).1.Pairwise fun earlier later =>
          ∀ program, earlier = .ok program → program.nodes ≠ [] → later = .ok ⟨[]⟩ := by
  intro begun unread
  refine ⟨?_, fun calls => ⟨?_, ?_⟩⟩
  · obtain ⟨last, hlast⟩ := Session.settled_parseTimes (s := ⟨unread⟩) (Nat.le_refl _)
    refine ⟨last, fun more => ?_, ?_⟩
    · rw [parseTimes_fst_eq, Session.parseTimes_add, hlast.parseTimes, parseTimes_fst_eq]
    · rcases hlast.result with hok | ⟨t, ht, hbegins, herror⟩
      · exact Or.inl hok
      · have hunread : t ∈ unread := (Session.ahead_parseTimes_suffix _ _).subset ht
        have htokens : t ∈ (s.pull skip).2.tokens := by rwa [← unread_ofSource]
        exact Or.inr ⟨t, hunread, Source.isEof_of_mem_tokens htokens, hbegins, herror⟩
  · obtain ⟨taken, htaken⟩ := takes_parse (begun.parseTimes calls).2
    refine ⟨taken, htaken, ?_, ?_⟩
    · rintro rfl more
      rw [parseTimes_fst_eq, htaken.eq_of_nil, (settled_of_takes_nil htaken).parseTimes]
    · rintro e he hother rfl
      rcases (settled_of_takes_nil htaken).result with hok | ⟨t, -, -, herror⟩
      · rw [he] at hok
        cases hok
      · rw [he] at herror
        cases herror
        exact hother _ rfl
  · rw [parseTimes_fst_eq]
    exact Session.pairwise_parseTimes _ _

/-- An error behind a keyword, and then one at a bracket: at first an operand and an operator are
taken before it, and then nothing is. -/
theorem settles_bracket :
    let begun := ofSource ((Source.ofString .space "x let 5 - ) 2").pull 1).2
    let stuck : ParseError := .expectedPrimary "')'"
    begun.unread.length = 5 ∧
      (begun.parseTimes 3).1 =
        [.error (.expected "identifier after 'let'" "'5'"), .error stuck, .error stuck] ∧
      (∀ more, (begun.parseTimes (5 + more)).1 =
        (begun.parseTimes 5).1 ++ List.replicate more (.error stuck)) ∧
      ∃ taken, Takes begun taken begun.parse.2 ∧ taken ≠ [] := by
  intro begun stuck
  have hlength : begun.unread.length = 5 := by decide +kernel
  obtain ⟨⟨last, hlast, -⟩, hcalls⟩ := settles (Source.ofString .space "x let 5 - ) 2") 1
  have hresults : ∀ more, (begun.parseTimes (5 + more)).1 =
      (begun.parseTimes 5).1 ++ List.replicate more last := by
    rw [← hlength]
    exact hlast
  have hstuck : (begun.parseTimes 6).1 = (begun.parseTimes 5).1 ++ [.error stuck] := by
    decide +kernel
  obtain rfl : last = .error stuck := by
    simpa using List.append_cancel_left ((hresults 1).symm.trans hstuck)
  obtain ⟨⟨taken, htaken, -, hshort⟩, -⟩ := hcalls 0
  have herror : begun.parse.1 = .error (.expected "identifier after 'let'" "'5'") := by
    decide +kernel
  exact ⟨hlength, by decide +kernel, hresults, taken, htaken, hshort _ herror nofun⟩

end Parser

end ScriptTree
