import Reparse.Proofs.Token.Edges

/-!
# Reading without looking far ahead

A pattern may examine more bytes than it matches: a literal that breaks off, a
number in front of a point, a quotation that is never closed.  Whether that can
show in a token of a text that is read as a whole depends on the patterns it
competes with, and `Pattern.isNear` tells so by looking at the patterns alone.
-/

namespace Reparse

namespace Pattern

/-- Whether a match can begin with the byte. -/
def begins : Pattern → UInt8 → Bool
  | .literal [], _ => false
  | .literal (first :: _), byte => byte == first
  | .identifier, byte => Byte.startsName byte
  | .number, byte => Byte.isDigit byte
  | .quoted delimiter, byte => byte == delimiter
  | .whitespace, byte => Byte.isSpace byte
  | .lineComment [], _ => true
  | .lineComment (first :: _), byte => byte == first

/-- Whether the pattern, as an extra, is read without looking far ahead. -/
def isShortExtra : Pattern → Bool
  | .whitespace => true
  | .lineComment opening => 0 < opening.length && opening.length ≤ 2
  | _ => false

/-- Whether no other pattern of the list can match at the byte. -/
def standsAlone (patterns : List Pattern) (pattern : Pattern) (byte : UInt8) :
    Bool :=
  patterns.all fun other => decide (other = pattern) || !other.begins byte

/-- Whether the pattern, among the others, is read without looking far ahead: a
long literal breaks off either inside a name or where nothing else matches. -/
def isNear (patterns : List Pattern) : Pattern → Bool
  | .literal [] => true
  | .literal (first :: text) =>
      decide (text.length ≤ 1) ||
        (decide (.identifier ∈ patterns) && Byte.startsName first &&
          text.all Byte.continuesName) ||
        standsAlone patterns (.literal (first :: text)) first
  | .quoted delimiter => standsAlone patterns (.quoted delimiter) delimiter
  | .lineComment _ => false
  | _ => true

theorem progress_eq_some {scan : Scan} {length : Nat} :
    scan.progress = some length ↔ scan.length = some length ∧ 0 < length := by
  rw [Scan.progress, Option.filter_eq_some_iff, decide_eq_true_eq]

theorem scanLiteral_examined_le (text rest : List UInt8) :
    (scanLiteral text rest).examined ≤ text.length := by
  induction text generalizing rest with
  | nil => exact Nat.le_refl _
  | cons expected text induction =>
      cases rest with
      | nil => simp [scanLiteral, Scan.failed]
      | cons byte rest =>
          have bound := induction rest
          simp only [scanLiteral]
          split
          · simp only [Scan.after, List.length_cons]
            omega
          · simp [Scan.failed]

/-- A literal that is a piece of a name breaks off at the end of the name. -/
theorem scanLiteral_examined_le_run {text : List UInt8}
    (piece : text.all Byte.continuesName = true) (rest : List UInt8) :
    (scanLiteral text rest).examined ≤
      (rest.takeWhile Byte.continuesName).length + 1 := by
  induction text generalizing rest with
  | nil => exact Nat.zero_le _
  | cons expected text induction =>
      rw [List.all_cons, Bool.and_eq_true] at piece
      cases rest with
      | nil => simp [scanLiteral, Scan.failed]
      | cons byte rest =>
          simp only [scanLiteral]
          split
          · next same =>
              have bound := induction piece.2 rest
              rw [same, List.takeWhile_cons_of_pos piece.1, List.length_cons]
              simp only [Scan.after]
              omega
          · simp [Scan.failed]

/-- At a byte that a match cannot begin with no more is examined. -/
theorem scan_of_not_begins {pattern : Pattern} {byte : UInt8}
    {rest : List UInt8} (foreign : pattern.begins byte = false) :
    (pattern.scan (byte :: rest)).examined ≤ 1 ∧
      (pattern.scan (byte :: rest)).progress = none := by
  cases pattern with
  | literal text =>
      cases text with
      | nil => exact ⟨Nat.zero_le _, rfl⟩
      | cons first text =>
          have different : byte ≠ first := by simpa [begins] using foreign
          simp only [scan, scanLiteral, if_neg different]
          exact ⟨Nat.le_refl _, rfl⟩
  | identifier =>
      have different : Byte.startsName byte = false := foreign
      simp only [scan, scanIdentifier, different]
      exact ⟨Nat.le_refl _, rfl⟩
  | number =>
      have different : Byte.isDigit byte = false := foreign
      simp only [scan, scanNumber, List.takeWhile_cons, different]
      exact ⟨Nat.le_refl _, rfl⟩
  | quoted delimiter =>
      have different : byte ≠ delimiter := by simpa [begins] using foreign
      simp only [scan, scanQuoted, if_neg different]
      exact ⟨Nat.le_refl _, rfl⟩
  | whitespace =>
      have different : Byte.isSpace byte = false := foreign
      simp only [scan, scanRun, List.takeWhile_cons, different]
      exact ⟨Nat.le_refl _, rfl⟩
  | lineComment opening =>
      cases opening with
      | nil => cases foreign
      | cons first opening =>
          have different : byte ≠ first := by simpa [begins] using foreign
          simp only [scan, scanLineComment, scanLiteral, if_neg different]
          exact ⟨Nat.le_refl _, rfl⟩

/-- A number is known one byte past its end, or two bytes if a point follows
it. -/
theorem scanNumber_of_isDigit {byte : UInt8} {tail : List UInt8}
    (digit : Byte.isDigit byte = true) :
    ∃ length, (scanNumber (byte :: tail)).progress = some length ∧
      ((scanNumber (byte :: tail)).examined = length + 1 ∨
        (scanNumber (byte :: tail)).examined = length + 2 ∧
          ((byte :: tail).drop length).head? = some Byte.point) := by
  have run : ((byte :: tail).takeWhile Byte.isDigit).length ≠ 0 := by
    simp [digit]
  simp only [scanNumber]
  split
  · next none => exact absurd none run
  · next whole _ =>
      split
      · exact ⟨whole + 1, rfl, .inl rfl⟩
      · next separator fraction behind =>
          split
          · next point =>
              split
              · refine ⟨whole + 1, rfl, .inr ⟨rfl, ?_⟩⟩
                rw [behind, point]
                rfl
              · next places _ => exact ⟨whole + places + 3, rfl, .inl rfl⟩
          · exact ⟨whole + 1, rfl, .inl rfl⟩

/-- What is examined for an extra that is read without looking far ahead. -/
theorem examined_of_isShortExtra {extra : Pattern}
    (short : extra.isShortExtra = true) (rest : List UInt8) :
    (∀ length, (extra.scan rest).progress = some length →
        (extra.scan rest).examined ≤ length + 1) ∧
      ((extra.scan rest).progress = none →
        0 < (extra.scan rest).examined ∧ (extra.scan rest).examined ≤ 2) := by
  cases extra with
  | literal | identifier | number | quoted => cases short
  | whitespace =>
      simp only [scan, scanRun]
      split
      · refine ⟨fun length found => ?_, fun _ => ?_⟩
        · cases found
        · simp [Scan.failed]
      · next length _ =>
          refine ⟨fun other found => ?_, fun stalled => ?_⟩
          · obtain ⟨same, _⟩ := progress_eq_some.mp found
            cases same
            exact Nat.le_refl _
          · simp [Scan.progress, Scan.matched] at stalled
  | lineComment opening =>
      simp only [isShortExtra, Bool.and_eq_true, decide_eq_true_eq] at short
      simp only [scan, scanLineComment]
      split
      · next failed =>
          refine ⟨fun length found => ?_, fun _ => ⟨?_, ?_⟩⟩
          · rw [progress_eq_some, failed] at found
            cases found.1
          · cases opening with
            | nil => cases failed
            | cons first opening =>
                cases rest with
                | nil => exact Nat.one_pos
                | cons byte rest =>
                    simp only [scanLiteral]
                    split
                    · simp [Scan.after]
                    · simp [Scan.failed]
          · exact Nat.le_trans (scanLiteral_examined_le opening rest) short.2
      · refine ⟨fun length found => ?_, fun stalled => ?_⟩
        · obtain ⟨same, _⟩ := progress_eq_some.mp found
          cases same
          exact Nat.le_refl _
        · simp only [Scan.progress, Scan.matched, Option.filter_eq_none_iff]
            at stalled
          have := stalled _ rfl
          simp only [decide_eq_true_eq] at this
          omega

end Pattern

namespace Lexeme

section

variable {extras : List Pattern}
  (short : ∀ extra ∈ extras, extra.isShortExtra = true)

include short

/-- An extra is found, or none is, without looking far ahead. -/
theorem leadingExtra_examined {rest : List UInt8} {found : Option Nat}
    {examined : Nat} (leading : leadingExtra extras rest = (found, examined)) :
    (∀ length, found = some length → examined ≤ length + 1) ∧
      (found = none →
        (extras ≠ [] → 0 < examined) ∧ examined ≤ 2) := by
  induction extras generalizing found examined with
  | nil =>
      cases leading
      refine ⟨fun length same => ?_, fun _ =>
        ⟨fun filled => absurd rfl filled, by omega⟩⟩
      cases same
  | cons extra extras induction =>
      obtain ⟨matched, stalled⟩ := Pattern.examined_of_isShortExtra
        (short extra List.mem_cons_self) rest
      simp only [leadingExtra] at leading
      cases progress : (extra.scan rest).progress with
      | some length =>
          rw [progress] at leading
          cases leading
          refine ⟨fun other same => ?_, fun missing => ?_⟩
          · cases same
            exact matched length progress
          · cases missing
      | none =>
          rw [progress] at leading
          cases leading
          obtain ⟨positive, bound⟩ := stalled progress
          obtain ⟨found, none⟩ := induction
            (fun other member => short other (List.mem_cons_of_mem _ member))
            (Prod.ext rfl rfl)
          refine ⟨fun length same => ?_, fun same => ⟨fun _ => ?_, ?_⟩⟩
          · have advance := (leadingExtra_bounds (Prod.ext same rfl)).1
            have within := found length same
            omega
          · omega
          · have within := (none same).2
            omega

/-- What is examined for the extras in front of a token is what is examined
where the token begins. -/
theorem skipExtras_examined (filled : extras ≠ []) (rest : List UInt8) :
    (skipExtras extras rest).examined =
        (skipExtras extras rest).length +
          (skipExtras extras
            (rest.drop (skipExtras extras rest).length)).examined ∧
      0 < (skipExtras extras
        (rest.drop (skipExtras extras rest).length)).examined ∧
        (skipExtras extras
          (rest.drop (skipExtras extras rest).length)).examined ≤ 2 := by
  induction rest using skipExtras.induct extras with
  | case1 rest examined found =>
      obtain ⟨positive, bound⟩ := (leadingExtra_examined short found).2 rfl
      simp only [skipExtras_of_none found, List.drop_zero, Nat.zero_add]
      exact ⟨trivial, positive filled, bound⟩
  | case2 rest length examined found induction =>
      have within := (leadingExtra_examined short found).1 length rfl
      obtain ⟨same, positive, bound⟩ := induction
      rw [skipExtras_of_some found]
      simp only [← List.drop_drop]
      refine ⟨?_, positive, bound⟩
      omega

end

/-- The candidate is the offer of one of the terminals, and none offers a longer
match. -/
structure Candidate.Leads (terminals : List Terminal) (rest : List UInt8)
    (best : Candidate) : Prop where
  offered : ∃ terminal ∈ terminals,
    (terminal.pattern.scan rest).progress = some best.length
  longest : ∀ terminal ∈ terminals, ∀ length,
    (terminal.pattern.scan rest).progress = some length →
      length ≤ best.length

theorem length_ofScan? (terminal : Terminal) (scan : Scan) :
    (Candidate.ofScan? terminal scan).map Candidate.length = scan.progress := by
  unfold Candidate.ofScan?
  split
  · next length found =>
      exact (Pattern.progress_eq_some.mpr ⟨found, Nat.succ_pos _⟩).symm
  · next none =>
      cases progress : scan.progress with
      | none => rfl
      | some length =>
          obtain ⟨found, positive⟩ := Pattern.progress_eq_some.mp progress
          cases length with
          | zero => cases positive
          | succ length => exact absurd found (none length)

/-- The better one of two candidates is one of them and no shorter than the
other. -/
theorem better_eq_some {earlier later : Option Candidate} {best : Candidate}
    (found : Candidate.better earlier later = some best) :
    (earlier = some best ∨ later = some best) ∧
      ∀ other, earlier = some other ∨ later = some other →
        other.length ≤ best.length := by
  cases earlier with
  | none => exact ⟨.inr found, by simp_all [Candidate.better]⟩
  | some leader =>
      cases later with
      | none => exact ⟨.inl found, by simp_all [Candidate.better]⟩
      | some candidate =>
          simp only [Candidate.better] at found
          split at found
          · next beaten =>
              cases found
              simp only [Candidate.beats, Bool.or_eq_true, Bool.and_eq_true,
                decide_eq_true_eq, beq_iff_eq] at beaten
              refine ⟨.inr rfl, ?_⟩
              rintro other (same | same) <;> cases same <;> omega
          · next unbeaten =>
              cases found
              simp only [Candidate.beats, Bool.or_eq_true, decide_eq_true_eq,
                not_or] at unbeaten
              refine ⟨.inl rfl, ?_⟩
              rintro other (same | same) <;> cases same <;> omega

theorem better_eq_none {earlier later : Option Candidate}
    (none : Candidate.better earlier later = none) :
    earlier = .none ∧ later = .none := by
  cases earlier with
  | none => exact ⟨rfl, none⟩
  | some leader =>
      cases later with
      | none => cases none
      | some candidate =>
          simp only [Candidate.better] at none
          split at none <;> cases none

/-- Without a candidate no terminal made progress, and a candidate leads. -/
def Contest.Ranks (terminals : List Terminal) (rest : List UInt8)
    (tried : Contest) : Prop :=
  (tried.best = none → ∀ terminal ∈ terminals,
      (terminal.pattern.scan rest).progress = none) ∧
    ∀ best, tried.best = some best → best.Leads terminals rest

theorem ranks_enter {terminals : List Terminal} {rest : List UInt8}
    {tried : Contest} (ranks : tried.Ranks terminals rest)
    (terminal : Terminal) :
    (tried.enter rest terminal).Ranks (terminals ++ [terminal]) rest := by
  have offer := length_ofScan? terminal (terminal.pattern.scan rest)
  refine ⟨fun none => ?_, fun best found => ⟨?_, ?_⟩⟩
  · obtain ⟨earlier, later⟩ := better_eq_none none
    rw [later] at offer
    rw [List.forall_mem_append, List.forall_mem_singleton]
    exact ⟨ranks.1 earlier, offer.symm⟩
  · rcases (better_eq_some found).1 with earlier | later
    · obtain ⟨chosen, member, progress⟩ := (ranks.2 best earlier).offered
      exact ⟨chosen, List.mem_append_left _ member, progress⟩
    · rw [later] at offer
      exact ⟨terminal, List.mem_append_right _ List.mem_cons_self, offer.symm⟩
  · have least := (better_eq_some found).2
    rw [List.forall_mem_append, List.forall_mem_singleton]
    refine ⟨fun other member length progress => ?_, fun length progress => ?_⟩
    · cases earlier : tried.best with
      | none =>
          rw [ranks.1 earlier other member] at progress
          cases progress
      | some leader =>
          have behind := (ranks.2 leader earlier).longest other member length
            progress
          exact Nat.le_trans behind (least leader (.inl earlier))
    · rw [progress, Option.map_eq_some_iff] at offer
      obtain ⟨candidate, later, rfl⟩ := offer
      exact least candidate (.inr later)

theorem ranks_contest (terminals : List Terminal) (rest : List UInt8) :
    (contest terminals rest).Ranks terminals rest := by
  have run : ∀ later earlier : List Terminal, ∀ tried : Contest,
      tried.Ranks earlier rest →
        (later.foldl (Contest.enter rest) tried).Ranks (earlier ++ later)
          rest := by
    intro later
    induction later with
    | nil =>
        intro earlier tried ranks
        rw [List.append_nil]
        exact ranks
    | cons terminal later induction =>
        intro earlier tried ranks
        have entered := induction _ _ (ranks_enter ranks terminal)
        rw [List.append_assoc, List.singleton_append] at entered
        exact entered
  refine run terminals [] ⟨none, 0⟩ ⟨fun _ => List.forall_mem_nil _, ?_⟩
  intro best same
  cases same

/-- No more is examined than for one of the terminals. -/
theorem contest_examined_le {terminals : List Terminal} {rest : List UInt8}
    {bound : Nat} (each : ∀ terminal ∈ terminals,
      (terminal.pattern.scan rest).examined ≤ bound) :
    (contest terminals rest).examined ≤ bound := by
  have run : ∀ tried : Contest, tried.examined ≤ bound →
      (terminals.foldl (Contest.enter rest) tried).examined ≤ bound := by
    induction terminals with
    | nil => exact fun _ within => within
    | cons terminal terminals induction =>
        intro tried within
        rw [List.forall_mem_cons] at each
        rw [List.foldl_cons]
        exact induction each.2 _ (Nat.max_le.mpr ⟨within, each.1⟩)
  exact run ⟨none, 0⟩ (Nat.zero_le _)

section

variable {terminals : List Terminal} {patterns : List Pattern}
  {byte : UInt8} {tail : List UInt8} {best : Candidate}
  (known : ∀ terminal ∈ terminals, terminal.pattern ∈ patterns)
  (leads : best.Leads terminals (byte :: tail))

include known leads

/-- Where a pattern stands alone it is the one that matched. -/
theorem progress_of_standsAlone {pattern : Pattern}
    (alone : Pattern.standsAlone patterns pattern byte = true) :
    (pattern.scan (byte :: tail)).progress = some best.length := by
  obtain ⟨terminal, member, progress⟩ := leads.offered
  have other := List.all_eq_true.mp alone _ (known terminal member)
  rw [Bool.or_eq_true, decide_eq_true_eq, Bool.not_eq_true'] at other
  rcases other with same | foreign
  · rw [← same]
    exact progress
  · rw [(Pattern.scan_of_not_begins foreign).2] at progress
    cases progress

/-- A literal breaks off early, or inside a name that matches as well, or
nothing else can match. -/
theorem literal_examined_le
    (names : .identifier ∈ patterns →
      ∃ terminal ∈ terminals, terminal.pattern = .identifier)
    {first : UInt8} {text : List UInt8}
    (near : (Pattern.literal (first :: text)).isNear patterns = true)
    (same : byte = first) :
    (Pattern.scanLiteral (first :: text) (byte :: tail)).examined ≤
      best.length + 1 := by
  have positive := best.length_pos
  simp only [Pattern.isNear, Bool.or_eq_true, Bool.and_eq_true,
    decide_eq_true_eq] at near
  rcases near with (short | ⟨⟨named, starts⟩, piece⟩) | alone
  · have bound :=
      Pattern.scanLiteral_examined_le (first :: text) (byte :: tail)
    rw [List.length_cons] at bound
    omega
  · obtain ⟨name, memberName, isName⟩ := names named
    have least := leads.longest name memberName
      ((tail.takeWhile Byte.continuesName).length + 1) (by
        rw [isName, Pattern.scan, Pattern.scanIdentifier, same, if_pos starts]
        rfl)
    have bound := Pattern.scanLiteral_examined_le_run piece tail
    simp only [Pattern.scanLiteral, if_pos same, Scan.after]
    omega
  · subst same
    have matched := (Pattern.progress_eq_some.mp
      (progress_of_standsAlone known leads alone)).1
    have whole := Pattern.scanLiteral_matched matched
    simp only [Pattern.scan, whole, Scan.matched, Option.some.injEq]
      at matched ⊢
    omega

/-- A quotation that nothing competes with is closed. -/
theorem quoted_examined_le
    (alone : Pattern.standsAlone patterns (.quoted byte) byte = true) :
    (Pattern.scanQuoted byte (byte :: tail)).examined ≤ best.length + 1 := by
  have matched := (Pattern.progress_eq_some.mp
    (progress_of_standsAlone known leads alone)).1
  simp only [Pattern.scan, Pattern.scanQuoted, if_true] at matched ⊢
  cases closed : Pattern.closing? byte tail 1 with
  | none =>
      rw [closed] at matched
      cases matched
  | some length =>
      rw [closed] at matched
      simp only [Scan.matched, Option.some.injEq] at matched ⊢
      omega

omit leads in
/-- A pattern that is read without looking far ahead examines at most one byte
past the match, or two if the match is followed by a point. -/
theorem examined_of_isNear {rest : List UInt8}
    (leads : best.Leads terminals rest)
    (names : .identifier ∈ patterns →
      ∃ terminal ∈ terminals, terminal.pattern = .identifier)
    {terminal : Terminal} (member : terminal ∈ terminals)
    (near : terminal.pattern.isNear patterns = true) :
    (terminal.pattern.scan rest).examined ≤ best.length + 1 ∨
      (rest.drop best.length).head? = some Byte.point := by
  have positive := best.length_pos
  obtain ⟨chosen, _, progress⟩ := leads.offered
  obtain ⟨byte, tail, rfl⟩ : ∃ byte tail, rest = byte :: tail := by
    cases rest with
    | nil =>
        have within := Pattern.length_le_of_scan
          (Pattern.progress_eq_some.mp progress).1
        exact absurd within (Nat.not_le_of_lt positive)
    | cons byte tail => exact ⟨byte, tail, rfl⟩
  cases begins : terminal.pattern.begins byte with
  | false =>
      have bound := (@Pattern.scan_of_not_begins _ _ tail begins).1
      omega
  | true =>
      -- No terminal matches more than the best one, so a pattern that looks one
      -- byte behind its match stays within the bound.
      have longest := leads.longest terminal member
      generalize terminal.pattern = pattern at near begins longest ⊢
      cases pattern with
      | literal text =>
          cases text with
          | nil => cases begins
          | cons first text =>
              exact .inl (literal_examined_le known leads names near
                (eq_of_beq begins))
      | identifier =>
          have starts : Byte.startsName byte = true := begins
          have least := longest ((tail.takeWhile Byte.continuesName).length + 1)
            (by
              rw [Pattern.scan, Pattern.scanIdentifier, if_pos starts]
              rfl)
          simp only [Pattern.scan, Pattern.scanIdentifier, if_pos starts,
            Scan.matched]
          omega
      | number =>
          obtain ⟨length, progress, examined⟩ :=
            @Pattern.scanNumber_of_isDigit byte tail begins
          have least := longest length progress
          rcases examined with near | ⟨far, point⟩
          · simp only [Pattern.scan]
            omega
          -- Behind an integer a point and the byte after it are looked at.
          · simp only [Pattern.scan]
            rcases Nat.lt_or_eq_of_le least with shorter | same
            · omega
            · rw [← same]
              exact .inr point
      | quoted delimiter =>
          have same : byte = delimiter := eq_of_beq begins
          subst same
          exact .inl (quoted_examined_le known leads near)
      | whitespace =>
          obtain ⟨matched, stalled⟩ :=
            @Pattern.examined_of_isShortExtra .whitespace rfl (byte :: tail)
          cases progress :
              (Pattern.whitespace.scan (byte :: tail)).progress with
          | some length =>
              have least := longest length progress
              have bound := matched length progress
              omega
          | none =>
              have bound := (stalled progress).2
              omega
      | lineComment => cases near

end

/-- Nothing is read at a byte that no extra and no token begins with. -/
theorem read_of_not_begins {terminals : List Terminal} {extras : List Pattern}
    {byte : UInt8} (foreign : ∀ terminal ∈ terminals,
      terminal.pattern.begins byte = false)
    (foreignExtra : ∀ extra ∈ extras, extra.begins byte = false)
    (rest : List UInt8) :
    read terminals extras (byte :: rest) = .stuck 0 byte := by
  have stalled : (leadingExtra extras (byte :: rest)).1 = none := by
    induction extras with
    | nil => rfl
    | cons extra extras induction =>
        rw [List.forall_mem_cons] at foreignExtra
        simp only [leadingExtra,
          (Pattern.scan_of_not_begins foreignExtra.1).2]
        exact induction foreignExtra.2
  have skipped : skipExtras extras (byte :: rest) =
      ⟨0, (leadingExtra extras (byte :: rest)).2⟩ :=
    skipExtras_of_none (Prod.ext stalled rfl)
  have silent : (contest terminals (byte :: rest)).best = none := by
    cases won : (contest terminals (byte :: rest)).best with
    | none => rfl
    | some best =>
        obtain ⟨terminal, member, progress⟩ :=
          ((ranks_contest terminals (byte :: rest)).2 best won).offered
        rw [(Pattern.scan_of_not_begins (foreign terminal member)).2]
          at progress
        cases progress
  simp only [read, skipped, List.drop_zero, silent]

end Lexeme

/-- Whether tokens of the patterns, with the extras between them, are read
without looking far ahead.  A number in front of a point is read so because no
token goes on with the point. -/
def Pattern.allNear (extras patterns : List Pattern) : Bool :=
  !extras.isEmpty && extras.all isShortExtra &&
    patterns.all (isNear patterns) &&
    (extras ++ patterns).all fun pattern => !pattern.begins Byte.point

/-- In a text that is read as a whole no token is followed by a byte that
nothing begins with. -/
theorem Grammar.head?_behind_ne {grammar : Grammar} {byte : UInt8}
    (foreign : ∀ terminal ∈ grammar.terminals,
      terminal.pattern.begins byte = false)
    (foreignExtra : ∀ extra ∈ grammar.extras, extra.begins byte = false)
    {text : List UInt8} {list : TokenList} {index : Nat} {token : Token}
    (read : grammar.tokenize text = .ok list)
    (here : list.get? index = some token) :
    (text.drop token.span.stop).head? ≠ some byte := by
  intro found
  have readsOn := readsOn_edge read
    (Nat.succ_le_of_lt (TokenList.lt_size_of_get? here))
  rw [TokenList.edge_succ here] at readsOn
  cases behind : text.drop token.span.stop with
  | nil =>
      rw [behind] at found
      cases found
  | cons first rest =>
      rw [behind] at found
      cases found
      have stuck := Lexeme.read_of_not_begins foreign foreignExtra rest
      rw [← behind] at stuck
      cases later : list.tokens.toList.drop (index + 1) with
      | nil =>
          rw [later] at readsOn
          obtain ⟨_, reading, _⟩ := readsOn.nil
          rw [stuck] at reading
          cases reading
      | cons next others =>
          rw [later] at readsOn
          obtain ⟨_, reading, _⟩ := readsOn.cons
          rw [stuck] at reading
          cases reading

/-- It can be told from its patterns that a grammar reads tokens without looking
far ahead. -/
theorem Grammar.nearsighted_of_allNear {grammar : Grammar}
    {patterns : List Pattern}
    (known : ∀ terminal ∈ grammar.terminals, terminal.pattern ∈ patterns)
    (names : .identifier ∈ patterns →
      ∃ terminal ∈ grammar.terminals, terminal.pattern = .identifier)
    (near : Pattern.allNear grammar.extras patterns = true) :
    grammar.Nearsighted := by
  simp only [Pattern.allNear, Bool.and_eq_true, Bool.not_eq_true',
    List.isEmpty_eq_false_iff, List.all_eq_true, List.forall_mem_append]
    at near
  obtain ⟨⟨⟨filled, short⟩, near⟩, foreignExtra, foreign⟩ := near
  constructor
  · intro rest lexeme again reading readingAgain
    obtain ⟨best, won, rfl⟩ := Lexeme.read_eq_lexeme reading
    obtain ⟨same, _⟩ := Lexeme.skipExtras_examined short filled rest
    obtain ⟨none, _⟩ := Lexeme.skipExtras_drop grammar.extras rest
    obtain ⟨_, _, rfl⟩ := Lexeme.read_eq_lexeme readingAgain
    simp only [none, List.drop_zero, Nat.zero_add]
    omega
  · intro text list index token read here
    obtain ⟨lexeme, reading, rfl⟩ := lexeme_of_get? read here
    have behind := head?_behind_ne
      (fun terminal member => foreign _ (known terminal member)) foreignExtra
      read here
    obtain ⟨best, won, rfl⟩ := Lexeme.read_eq_lexeme reading
    obtain ⟨same, _, bound⟩ := Lexeme.skipExtras_examined short filled
      (text.drop (list.edge index))
    have leads := (Lexeme.ranks_contest grammar.terminals _).2 best won
    have tried : (Lexeme.contest grammar.terminals
        ((text.drop (list.edge index)).drop
          (Lexeme.skipExtras grammar.extras
            (text.drop (list.edge index))).length)).examined ≤
        best.length + 1 := by
      refine Lexeme.contest_examined_le fun terminal member => ?_
      refine (Lexeme.examined_of_isNear known leads names member
        (near _ (known terminal member))).resolve_right fun point => ?_
      rw [List.drop_drop, List.drop_drop] at point
      exact behind point
    have positive := best.length_pos
    simp only [Lexeme.token, Lexeme.extent]
    omega

end Reparse
