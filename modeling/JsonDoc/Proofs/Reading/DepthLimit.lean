import JsonDoc.Proofs.Reading.Level
import JsonDoc.Proofs.Reading.Stability

/-!
# Limits of depth

A limit of depth only cuts a run short, `read_limit`: reading under a limit is reading without one
up to the first event that opens a container too many, where it fails. This needs that the depth
that a scanner counts is the nesting of the events before it, which holds of every rule: values
leave the depth as it was, opening a container adds a level and closing it takes one off.
-/

namespace JsonDoc

namespace Event

/-- How many containers the events open. -/
def opened
    (events : List Event) : Nat :=
  events.countP fun event => event.kind.isBegin

/-- How many containers the events close. -/
def closed
    (events : List Event) : Nat :=
  events.countP fun event => event.kind.isEnd

@[simp] theorem opened_nil :
    opened [] = 0 := rfl

@[simp] theorem closed_nil :
    closed [] = 0 := rfl

@[simp] theorem opened_append
    (a b : List Event) :
    opened (a ++ b) = opened a + opened b :=
  List.countP_append

@[simp] theorem closed_append
    (a b : List Event) :
    closed (a ++ b) = closed a + closed b :=
  List.countP_append

/-- From a depth on, the events never nest deeper than the limit. -/
def Within (limit depth : Nat) (events : List Event) : Prop :=
  ∀ before, before <+: events → depth + opened before ≤ limit + closed before

variable {limit depth : Nat} {events a b : List Event}

theorem Within.whole
    (h : Within limit depth events) :
    depth + opened events ≤ limit + closed events := h events (List.prefix_refl events)

theorem Within.append
    {depth' : Nat}
    (h : Within limit depth a)
    (k : Within limit depth' b)
    (level : depth' + closed a = depth + opened a) :
    Within limit depth (a ++ b) := by
  intro before isPrefix
  by_cases short : before.length ≤ a.length
  · exact h before (List.prefix_of_prefix_length_le isPrefix (List.prefix_append a b) short)
  · obtain ⟨more, rfl⟩ := List.prefix_of_prefix_length_le (List.prefix_append a b) isPrefix
      (by omega)
    have inside := k more ((List.prefix_append_right_inj a).mp isPrefix)
    rw [opened_append, closed_append]
    omega

theorem isEnd_of_isBegin
    {kind : EventKind}
    (h : kind.isBegin) :
    kind.isEnd = false := by
  cases kind <;> simp_all [EventKind.isBegin, EventKind.isEnd]

theorem isBegin_of_isEnd
    {kind : EventKind}
    (h : kind.isEnd) :
    kind.isBegin = false := by
  cases kind <;> simp_all [EventKind.isBegin, EventKind.isEnd]

theorem opened_scalars
    (h : ∀ event ∈ events, event.kind.isScalar) :
    opened events = 0 := by
  refine List.countP_eq_zero.mpr ?_
  intro event mem
  have scalar := h event mem
  simp only [EventKind.isScalar, Bool.and_eq_true, Bool.not_eq_true'] at scalar
  simp [scalar.1]

theorem closed_scalars
    (h : ∀ event ∈ events, event.kind.isScalar) :
    closed events = 0 := by
  refine List.countP_eq_zero.mpr ?_
  intro event mem
  have scalar := h event mem
  simp only [EventKind.isScalar, Bool.and_eq_true, Bool.not_eq_true'] at scalar
  simp [scalar.2]

theorem within_scalars
    (h : ∀ event ∈ events, event.kind.isScalar)
    (room : depth ≤ limit) :
    Within limit depth events := by
  intro before isPrefix
  have scalars : ∀ event ∈ before, event.kind.isScalar :=
    fun event mem => h event (isPrefix.mem mem)
  rw [opened_scalars scalars, closed_scalars scalars]
  omega

end Event

namespace Run

open Event

/-- What the limit makes of a run from a place, in terms of the run without a limit. -/
inductive Cut (limit : Nat) (rise : Int) (s : Scanner) (run run' : Run) : Prop
  /-- Nothing, as the run stays within the limit. Without an error it ends a number of levels
  higher, as its events tell. -/
  | uncut :
      run' = run.limit (some limit) → Within limit s.depth run.events →
      (run.error = none → (run.stop.depth : Int) = s.depth + rise ∧
        (opened run.events : Int) = closed run.events + rise) →
      Cut limit rise s run run'
  /-- The run ends before the first event that opens a container too many. -/
  | cut (before : List Event) (event : Event) (after : List Event) :
      run.events = before ++ event :: after → event.kind.isBegin →
      Within limit s.depth before → s.depth + opened before = limit + closed before →
      run'.events = before → run'.error = some (.tooDeep event.span.start limit) →
      Cut limit rise s run run'

variable {s : Scanner} {limit : Nat} {rise rise' : Int} {run run' : Run} {next next' : Rule}

/-- A place without a limit whose depth is within the given one. -/
structure Unlimited (limit : Nat) (s : Scanner) : Prop where
  free : s.maxDepth = none
  depth : s.depth ≤ limit

theorem Level.cut
    (h : Level (some limit) s run run')
    (room : s.depth ≤ limit) :
    Cut limit 0 s run run' := by
  refine .uncut h.same (within_scalars h.scalars room) fun _ => ?_
  rw [h.depth, opened_scalars h.scalars, closed_scalars h.scalars]
  simp

theorem Cut.from
    {t : Scanner}
    (h : Cut limit rise t run run')
    (same : t.depth = s.depth) :
    Cut limit rise s run run' := by
  cases h with
  | uncut eq within level =>
      rw [same] at within level
      exact .uncut eq within level
  | cut before event after split begins within full events error =>
      rw [same] at within full
      exact .cut before event after split begins within full events error

theorem Cut.andThen
    {total : Int}
    (h : Cut limit rise s run run')
    (sum : rise + rise' = total)
    (orderly : Orderly s run)
    (unlimited : Unlimited limit s)
    (hn : run.error = none → Unlimited limit run.stop → (run.stop.depth : Int) = s.depth + rise →
      Cut limit rise' run.stop (next run.stop) (next' (run.stop.limit (some limit)))) :
    Cut limit total s (run.andThen next) (run'.andThen next') := by
  subst sum
  cases h with
  | cut before event after split begins within full events error =>
      have stays : run'.andThen next' = run' := andThen_of_error error
      rw [stays]
      obtain ⟨more, all⟩ := events_prefix_andThen run next
      refine .cut before event (after ++ more) ?_ begins within full events error
      rw [← all, split, List.append_assoc, List.cons_append]
  | uncut same within level =>
      subst same
      cases error : run.error with
      | some e =>
          have error' : (run.limit (some limit)).error = some e := error
          rw [andThen_of_error error, andThen_of_error error']
          refine .uncut rfl within ?_
          simp [error]
      | none =>
          have error' : (run.limit (some limit)).error = none := error
          have stop : (run.limit (some limit)).stop = run.stop.limit (some limit) := rfl
          obtain ⟨depth, balance⟩ := level error
          have whole := within.whole
          obtain ⟨text, passes⟩ := orderly.passes
          have unlimited' : Unlimited limit run.stop :=
            ⟨passes.maxDepth.trans unlimited.free, by omega⟩
          have meets : run.stop.depth + closed run.events = s.depth + opened run.events := by
            omega
          cases hn error unlimited' depth with
          | uncut same' within' level' =>
              refine .uncut ?_ ?_ ?_
              · simp only [Run.andThen, error, error', stop, same']
                rfl
              · rw [events_andThen error]
                exact within.append within' meets
              · rw [error_andThen error, stop_andThen error, events_andThen error,
                  opened_append, closed_append]
                intro ok
                obtain ⟨depth', balance'⟩ := level' ok
                omega
          | cut before event after split begins within' full events error'' =>
              refine .cut (run.events ++ before) event after ?_ begins
                (within.append within' meets) ?_ ?_ ?_
              · rw [events_andThen error, split, List.append_assoc]
              · rw [opened_append, closed_append]
                omega
              · rw [events_andThen error', stop, events]
                rfl
              · rw [error_andThen error', stop, error'']

end Run

namespace Grammar

open Run Event

variable {s : Scanner} {limit : Nat} {g : Grammar}

/-! ## Containers -/

/-- Opening a container is where a limit may cut. -/
theorem cut_opening
    {byte : UInt8}
    (peek : s.peek = some byte)
    (expected : Expectation)
    {kind : EventKind}
    (begins : kind.isBegin)
    (unlimited : Unlimited limit s) :
    Cut limit 1 s (opening byte expected kind s)
      (opening byte expected kind (s.limit (some limit))) := by
  have free : s.deeper.exceeded? = none := by
    have none : s.deeper.maxDepth = none := unlimited.free
    simp [Scanner.exceeded?, none]
  have notEnd := isEnd_of_isBegin begins
  rw [opening_of_within peek free]
  have peek' : (s.limit (some limit)).peek = some byte := peek
  by_cases room : s.depth < limit
  · have within : (s.limit (some limit)).deeper.exceeded? = none := by
      have low : ¬ limit < s.depth + 1 := by omega
      simp only [Scanner.exceeded?, Scanner.limit, Scanner.deeper, Option.filter_some, low,
        decide_false, Bool.false_eq_true, if_false]
    rw [opening_of_within peek' within]
    refine .uncut rfl ?_ fun _ => ?_
    · intro before isPrefix
      have few : opened before ≤ 1 := by
        have short : before.length ≤ 1 := by simpa using isPrefix.length_le
        exact Nat.le_trans List.countP_le_length short
      omega
    · simp [opened, closed, Scanner.eventTo, begins, notEnd, Scanner.bump, Scanner.deeper]
  · have exceeded : (s.limit (some limit)).deeper.exceeded? = some limit := by
      have high : limit < s.depth + 1 := by omega
      simp only [Scanner.exceeded?, Scanner.limit, Scanner.deeper, Option.filter_some, high,
        decide_true, if_true]
    have depth := unlimited.depth
    rw [opening_of_exceeded exceeded]
    refine .cut [] _ [] rfl begins ?_ ?_ rfl rfl
    · intro before isPrefix
      rw [List.prefix_nil.mp isPrefix]
      simpa using depth
    · simp only [opened_nil, closed_nil]
      omega

theorem cut_closing
    (byte : UInt8)
    (expected : Expectation)
    {kind : EventKind}
    (ends : kind.isEnd)
    (inside : 0 < s.depth)
    (unlimited : Unlimited limit s) :
    Cut limit (-1) s (closing byte expected kind s)
      (closing byte expected kind (s.limit (some limit))) := by
  have notBegin := isBegin_of_isEnd ends
  have depth := unlimited.depth
  by_cases peek : s.peek = some byte
  · have peek' : (s.limit (some limit)).peek = some byte := peek
    rw [closing_of_peek peek, closing_of_peek peek']
    refine .uncut rfl ?_ fun _ => ?_
    · intro before isPrefix
      have none : opened before = 0 := by
        refine List.countP_eq_zero.mpr ?_
        intro event mem
        rw [List.mem_singleton.mp (isPrefix.mem mem)]
        simp [Scanner.eventTo, notBegin]
      omega
    · have shallower : s.bump.leave.depth = s.depth - 1 := rfl
      simp only [shallower, opened, closed, Scanner.eventTo, notBegin, ends, List.countP_cons,
        List.countP_nil]
      simp only [Bool.false_eq_true, if_false, if_true]
      omega
  · have peek' : (s.limit (some limit)).peek ≠ some byte := peek
    have failed (t : Scanner) (h : t.peek ≠ some byte) :
        closing byte expected kind t = missing t expected := by
      simp [closing, expect, h, missing, fail, andThen]
    rw [failed s peek, failed _ peek']
    refine .uncut rfl (within_scalars (by simp [missing, fail]) depth) ?_
    simp [missing, fail]

section Items

variable {sep : Separation} {item : Rule}

theorem cut_afterItem
    {next : Rule}
    (unlimited : Unlimited limit s)
    (hn : ∀ t : Scanner, t.rest.length < s.rest.length → Unlimited limit t →
      Cut limit 0 t (next t) (next (t.limit (some limit)))) :
    Cut limit 0 s (g.afterItem sep next s) (g.afterItem sep next (s.limit (some limit))) := by
  have room := unlimited.depth
  unfold afterItem
  rw [skip_limit]
  simp only
  rw [Scanner.peek_limit, Scanner.bump_limit, skip_limit, Scanner.peek_limit]
  cases peek : (g.skip s).peek with
  | none =>
      exact (level_missing s (g.skip s) rfl _).cut room
  | some b =>
      simp only
      split
      · have shorter : (g.skip (g.skip s).bump).rest.length < s.rest.length :=
          Nat.lt_of_lt_of_le (length_rest_skip_bump_lt g peek) (length_rest_skip_le g s)
        split
        · exact (level_fail s (g.skip (g.skip s).bump) rfl _).cut room
        · exact (hn (g.skip (g.skip s).bump) shorter ⟨unlimited.free, room⟩).from rfl
      · split
        · exact (level_done s (g.skip s) rfl).cut room
        · exact (level_missing s (g.skip s) rfl _).cut room

variable (orderly : ∀ t, Orderly t (item t))
include orderly

/-- Every item keeps the depth, so all of them do: by induction on the bytes ahead. -/
theorem cut_series
    {n : Nat}
    (each : ∀ t : Scanner, t.rest.length ≤ n → Unlimited limit t →
      Cut limit 0 t (item t) (item (t.limit (some limit)))) :
    ∀ (bound : Nat) (s : Scanner), s.rest.length < bound → bound ≤ n + 1 → Unlimited limit s →
      Cut limit 0 s (g.series sep item s) (g.series sep item (s.limit (some limit))) := by
  intro bound
  induction bound with
  | zero =>
      exact fun s hs => absurd hs (Nat.not_lt_zero _)
  | succ bound ih =>
      intro s hs hn unlimited
      have shorter := (orderly s).length_rest_le
      rw [series_eq orderly, series_eq orderly]
      refine (each s (by omega) unlimited).andThen (Int.zero_add 0) (orderly s) unlimited
        fun _ unlimited' _ => ?_
      exact cut_afterItem unlimited' fun t ht => ih t (by omega) (by omega)

theorem cut_itemsOrNone
    (unlimited : Unlimited limit s)
    (each : ∀ t : Scanner, t.rest.length ≤ s.rest.length → Unlimited limit t →
      Cut limit 0 t (item t) (item (t.limit (some limit)))) :
    Cut limit 0 s (g.itemsOrNone sep item s)
      (g.itemsOrNone sep item (s.limit (some limit))) := by
  have shorter := length_rest_skip_le g s
  unfold itemsOrNone
  rw [skip_limit]
  simp only
  rw [Scanner.peek_limit]
  split
  · exact (level_done s (g.skip s) rfl).cut unlimited.depth
  · have items : Cut limit 0 (g.skip s) (g.series sep item (g.skip s))
        (g.series sep item ((g.skip s).limit (some limit))) :=
      cut_series orderly each _ (g.skip s) (Nat.lt_succ_self _) (by omega)
        ⟨unlimited.free, unlimited.depth⟩
    exact items.from rfl

/-- A container opens one level and closes it again. -/
theorem cut_container
    (brackets : Brackets)
    (begins : brackets.begins.isBegin)
    (ends : brackets.ends.isEnd)
    (peek : s.peek = some brackets.first)
    (unlimited : Unlimited limit s)
    (each : ∀ t : Scanner, t.rest.length < s.rest.length → Unlimited limit t →
      Cut limit 0 t (item t) (item (t.limit (some limit)))) :
    Cut limit 0 s (g.container brackets sep item s)
      (g.container brackets sep item (s.limit (some limit))) := by
  refine (cut_opening peek _ begins unlimited).andThen (Int.add_right_neg 1)
    (orderly_opening peek _ _) unlimited fun ok unlimited' deeper => ?_
  have shorter := length_rest_opening_lt peek ok
  refine (cut_itemsOrNone orderly unlimited' ?_).andThen (Int.zero_add (-1))
    (orderly_itemsOrNone orderly _) unlimited' fun _ unlimited'' same => ?_
  · exact fun t ht => each t (by omega)
  · exact cut_closing _ _ ends (by omega) unlimited''

end Items

/-! ## Values -/

theorem cut_member
    {value : Rule}
    (unlimited : Unlimited limit s)
    (each : ∀ t : Scanner, t.rest.length ≤ s.rest.length → Unlimited limit t →
      Cut limit 0 t (value t) (value (t.limit (some limit)))) :
    Cut limit 0 s (g.member value s) (g.member value (s.limit (some limit))) := by
  have keyShorter := (orderly_key g s).length_rest_le
  have skipShorter := length_rest_skip_le g (g.key s).stop
  have key := (level_key (some limit) g s).cut unlimited.depth
  refine key.andThen (Int.zero_add 0) (orderly_key g s) unlimited fun _ unlimited' _ => ?_
  have colon := level_expect (some limit) Byte.colon .colonAfterKey (g.skip (g.key s).stop)
  have colonOrderly := (silent_expect Byte.colon .colonAfterKey (g.skip (g.key s).stop)).orderly
  refine Cut.from (t := g.skip (g.key s).stop) ?_ rfl
  refine (colon.cut unlimited'.depth).andThen (Int.zero_add 0) colonOrderly
    ⟨unlimited'.free, unlimited'.depth⟩ fun _ unlimited'' _ => ?_
  have colonShorter := colonOrderly.length_rest_le
  let t := g.skip (expect Byte.colon .colonAfterKey (g.skip (g.key s).stop)).stop
  have valueShorter : t.rest.length ≤ _ := length_rest_skip_le g _
  exact (each t (by omega) ⟨unlimited''.free, unlimited''.depth⟩).from rfl

theorem cut_value
    (g : Grammar) :
    ∀ (n : Nat) (s : Scanner), s.rest.length < n →
      Unlimited limit s → Cut limit 0 s (g.value s) (g.value (s.limit (some limit))) := by
  intro n
  induction n with
  | zero =>
      exact fun s hs => absurd hs (Nat.not_lt_zero _)
  | succ n ih =>
      intro s hs unlimited
      have room := unlimited.depth
      rw [value_eq]
      unfold valueOf
      rw [Scanner.peek_limit]
      cases peek : s.peek with
      | none =>
          exact (level_missing s s rfl _).cut room
      | some b =>
          have leads := Leading.leads_ofByte b
          simp only
          cases kind : Leading.ofByte b with
          | number =>
              exact (level_number (some limit) g s).cut room
          | string =>
              exact (level_string (some limit) s).cut room
          | literal l =>
              exact (level_literal (some limit) g l s).cut room
          | array =>
              rw [kind] at leads
              have first : b = arrayBrackets.first := leads
              rw [first] at peek
              exact cut_container (orderly_value g) arrayBrackets rfl rfl peek unlimited
                fun t ht => ih t (by omega)
          | object =>
              rw [kind] at leads
              have first : b = objectBrackets.first := leads
              rw [first] at peek
              refine cut_container (orderly_member (orderly_value g)) objectBrackets rfl rfl peek
                unlimited fun t ht unlimited' => ?_
              exact cut_member unlimited' fun u hu => ih u (by omega)
          | other =>
              exact (level_unknown (some limit) g s).cut room

/-! ## Whole inputs -/

theorem cut_read
    (g : Grammar)
    (limit : Nat)
    (input : List UInt8) :
    Cut limit 0 (Scanner.start input none) (g.read none input) (g.read (some limit) input) := by
  have start :
      Scanner.start input (some limit) = (Scanner.start input none).limit (some limit) := rfl
  have unlimited : Unlimited limit (g.skip (Scanner.start input none)) :=
    ⟨rfl, Nat.zero_le limit⟩
  rw [read, read, start, skip_limit]
  refine Cut.from (t := g.skip (Scanner.start input none)) ?_ rfl
  refine (cut_value g _ _ (Nat.lt_succ_self _) unlimited).andThen (Int.zero_add 0)
    (orderly_value g _) unlimited fun _ unlimited' _ => ?_
  let t := (g.value (g.skip (Scanner.start input none))).stop
  exact (level_done t (g.skip t) rfl).cut unlimited'.depth

/-- A limit of depth cuts the run without one. Where no prefix of its events opens more containers
than the limit allows beyond those it closes, nothing changes. Otherwise there is a first event
that opens a container too many, and the run ends before it, at its start. -/
theorem read_limit
    (g : Grammar)
    (limit : Nat)
    (input : List UInt8) :
    ((∀ before, before <+: (g.read none input).events → opened before ≤ limit + closed before) →
        (g.read (some limit) input).events = (g.read none input).events ∧
        (g.read (some limit) input).error = (g.read none input).error ∧
        (g.read (some limit) input).stop.position = (g.read none input).stop.position) ∧
      ((∃ before, before <+: (g.read none input).events ∧ limit + closed before < opened before) →
        ∃ before event after, (g.read none input).events = before ++ event :: after ∧
          event.kind.isBegin ∧ opened before = limit + closed before ∧
          (∀ earlier, earlier <+: before → opened earlier ≤ limit + closed earlier) ∧
          (g.read (some limit) input).events = before ∧
          (g.read (some limit) input).error = some (.tooDeep event.span.start limit)) := by
  have depth : (Scanner.start input none).depth = 0 := rfl
  cases cut_read g limit input with
  | uncut same within level =>
      simp only [Within, depth, Nat.zero_add] at within
      refine ⟨fun _ => ?_, ?_⟩
      · rw [same]
        exact ⟨rfl, rfl, rfl⟩
      · rintro ⟨before, isPrefix, passed⟩
        have := within before isPrefix
        omega
  | cut before event after split begins within full events error =>
      simp only [Within, depth, Nat.zero_add] at within full
      refine ⟨fun all => ?_, fun _ => ?_⟩
      · have passed := all (before ++ [event]) ⟨after, by simp [split]⟩
        have notEnd : event.kind.isEnd = false := isEnd_of_isBegin begins
        simp only [opened, closed, List.countP_append, List.countP_singleton, begins, notEnd]
          at passed full
        simp only [if_true, Bool.false_eq_true, if_false] at passed
        omega
      · exact ⟨before, event, after, split, begins, full, within, events, error⟩

/-- Two opening brackets are within a limit of two, and the second one is cut by a limit of one. -/
theorem read_limit_brackets :
    (strict.read (some 2) [Byte.openBracket, Byte.openBracket]).error =
        some (.overrun 2 .value) ∧
      ∃ before event after,
        (strict.read none [Byte.openBracket, Byte.openBracket]).events = before ++ event :: after ∧
        event.kind.isBegin ∧ opened before = 1 + closed before ∧
        (∀ earlier, earlier <+: before → opened earlier ≤ 1 + closed earlier) ∧
        (strict.read (some 1) [Byte.openBracket, Byte.openBracket]).events = before ∧
        (strict.read (some 1) [Byte.openBracket, Byte.openBracket]).error =
          some (.tooDeep event.span.start 1) := by
  refine ⟨?_, ?_⟩
  · refine ((read_limit .strict 2 [Byte.openBracket, Byte.openBracket]).1 ?_).2.1
    intro before isPrefix
    have few : opened before ≤ before.length := List.countP_le_length
    have short : before.length ≤ 2 := isPrefix.length_le
    omega
  · refine (read_limit .strict 1 [Byte.openBracket, Byte.openBracket]).2 ?_
    exact ⟨_, List.prefix_refl _, by decide⟩

end Grammar
end JsonDoc
