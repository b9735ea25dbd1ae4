import Mathlib
import SigScript.Proofs.Script.Opcodes
import SigScript.Script.Trace

/-!
# How far a run gets

A run gets from token to token, with a stack before each of them (`Reaches`), until one of them fails
or halts it (`StopsAt`).  A run that is stopped is stopped by exactly one token (`exists_stopsAt`,
`StopsAt.unique`), and what stands behind that token has no influence on it
(`runFrom_append_of_stopped`).  The tokens that a run reaches are those that its trace tells of
(`reached_mem_trace_iff`).
-/

namespace SigScript

/-- How a run stands that no further token changes. -/
inductive Stopped : Except ScriptError State → Prop
  | failed (e : ScriptError) : Stopped (.error e)
  | halted : Stopped (.ok .halted)

theorem stopped_or_running (outcome : Except ScriptError State) :
    Stopped outcome ∨ ∃ stack, outcome = .ok (.running stack) := by
  rcases outcome with e | stack | _
  · exact .inl (.failed e)
  · exact .inr ⟨stack, rfl⟩
  · exact .inl .halted

namespace Machine

variable {machine : Machine} {s : State} {stack : Stack} {tokens first : List String}
  {text : String} {outcome outcome' : Except ScriptError State} {i j : Nat}

/-- The run gets through the first `i` tokens without a failure or a halt and holds `stack` then. -/
def Reaches (machine : Machine) (tokens : List String) (i : Nat) (stack : Stack) : Prop :=
  i ≤ tokens.length ∧ machine.runFrom (.running []) (tokens.take i) = .ok (.running stack)

/-- The run reaches the `i`-th token, which stops it with the outcome. -/
def StopsAt (machine : Machine) (tokens : List String) (i : Nat)
    (outcome : Except ScriptError State) : Prop :=
  Stopped outcome ∧ ∃ stack text, machine.Reaches tokens i stack ∧ tokens[i]? = some text ∧
    machine.step (.running stack) text = outcome

/-! ### Tokens that are reached -/

theorem runFrom_append_of_stopped (h : machine.runFrom s first = outcome) (hstop : Stopped outcome)
    (second : List String) : machine.runFrom s (first ++ second) = outcome := by
  rw [runFrom_append, h]
  cases hstop with
  | failed e => rfl
  | halted => exact runFrom_halted machine second

theorem reaches_length_iff :
    machine.Reaches tokens tokens.length stack ↔
      machine.runFrom (.running []) tokens = .ok (.running stack) := by
  rw [Reaches, List.take_length, and_iff_right le_rfl]

theorem reaches_append_iff (hi : i ≤ first.length) (more : List String) :
    machine.Reaches (first ++ more) i stack ↔ machine.Reaches first i stack := by
  rw [Reaches, Reaches, List.take_append_of_le_length hi, List.length_append,
    iff_true_intro hi, iff_true_intro (hi.trans (Nat.le_add_right _ _))]

/-- A token that is reached stands behind tokens that are reached. -/
theorem Reaches.of_le (h : machine.Reaches tokens j stack) (hij : i ≤ j) :
    ∃ stack', machine.Reaches tokens i stack' := by
  obtain ⟨hj, hrun⟩ := h
  have hsplit := List.take_append_drop i (tokens.take j)
  rw [List.take_take, min_eq_left hij] at hsplit
  obtain hstop | ⟨stack', hstack'⟩ :=
    stopped_or_running (machine.runFrom (.running []) (tokens.take i))
  · rw [← hsplit, runFrom_append_of_stopped rfl hstop] at hrun
    rw [hrun] at hstop
    cases hstop
  · exact ⟨stack', hij.trans hj, hstack'⟩

theorem Reaches.runFrom_take_succ (h : machine.Reaches tokens i stack)
    (htext : tokens[i]? = some text) :
    machine.runFrom (.running []) (tokens.take (i + 1)) = machine.step (.running stack) text := by
  rw [List.take_add_one, htext, Option.toList_some, runFrom_append, h.2]
  exact runFrom_singleton machine _ text

/-! ### The token that stops a run -/

theorem StopsAt.lt_length (h : machine.StopsAt tokens i outcome) : i < tokens.length := by
  obtain ⟨-, _, _, -, htext, -⟩ := h
  exact (List.getElem?_eq_some_iff.1 htext).1

theorem StopsAt.runFrom_take_append (h : machine.StopsAt tokens i outcome) (more : List String) :
    machine.runFrom (.running []) (tokens.take (i + 1) ++ more) = outcome := by
  obtain ⟨hstop, stack, text, hreaches, htext, hstep⟩ := h
  exact runFrom_append_of_stopped ((hreaches.runFrom_take_succ htext).trans hstep) hstop more

theorem StopsAt.runFrom_eq (h : machine.StopsAt tokens i outcome) :
    machine.runFrom (.running []) tokens = outcome := by
  rw [← List.take_append_drop (i + 1) tokens]
  exact h.runFrom_take_append _

theorem StopsAt.append (h : machine.StopsAt first i outcome) (more : List String) :
    machine.StopsAt (first ++ more) i outcome := by
  have hi := h.lt_length
  obtain ⟨hstop, stack, text, hreaches, htext, hstep⟩ := h
  refine ⟨hstop, stack, text, (reaches_append_iff hi.le more).2 hreaches, ?_, hstep⟩
  rw [List.getElem?_append_left hi, htext]

/-- No token behind the one that stops the run is reached. -/
theorem StopsAt.le_of_reaches (h : machine.StopsAt tokens i outcome)
    (hreaches : machine.Reaches tokens j stack) : j ≤ i := by
  by_contra hij
  obtain ⟨stack', -, hrun⟩ := hreaches.of_le (not_le.1 hij)
  have houtcome := h.runFrom_take_append []
  rw [List.append_nil, hrun] at houtcome
  rw [← houtcome] at h
  cases h.1

theorem StopsAt.unique (h : machine.StopsAt tokens i outcome)
    (h' : machine.StopsAt tokens j outcome') : i = j := by
  obtain ⟨-, stack, text, hreaches, -⟩ := id h
  obtain ⟨-, stack', text', hreaches', -⟩ := id h'
  exact le_antisymm (h'.le_of_reaches hreaches) (h.le_of_reaches hreaches')

/-- A run that is stopped is stopped by one of its tokens. -/
theorem exists_stopsAt (h : machine.runFrom (.running []) tokens = outcome)
    (hstop : Stopped outcome) : ∃ i, machine.StopsAt tokens i outcome := by
  induction tokens using List.reverseRecOn with
  | nil =>
    cases h
    cases hstop
  | append_singleton tokens text ih =>
    obtain hbefore | ⟨stack, hstack⟩ :=
      stopped_or_running (machine.runFrom (.running []) tokens)
    · have hsame := runFrom_append_of_stopped rfl hbefore [text]
      obtain ⟨i, hi⟩ := ih (hsame.symm.trans h)
      exact ⟨i, hi.append [text]⟩
    · -- The tokens before the last one do not stop the run, so the last one does.
      have hreaches := (reaches_append_iff le_rfl [text]).2 (reaches_length_iff.2 hstack)
      have htext : (tokens ++ [text])[tokens.length]? = some text := List.getElem?_concat_length
      refine ⟨tokens.length, hstop, stack, text, hreaches, htext, ?_⟩
      rw [← hreaches.runFrom_take_succ htext, ← h, List.take_of_length_le (by simp)]

theorem runFrom_eq_iff_exists_stopsAt (hstop : Stopped outcome) :
    machine.runFrom (.running []) tokens = outcome ↔ ∃ i, machine.StopsAt tokens i outcome :=
  ⟨fun h => exists_stopsAt h hstop, fun ⟨_, h⟩ => h.runFrom_eq⟩

/-! ### The trace of a run -/

theorem event?_ne_reached (effect : Effect) : effect.event? ≠ some (.reached i text stack) := by
  cases effect <;> simp [Effect.event?]

/-- A trace that starts at position `i` tells of the tokens that the run gets to from there. -/
theorem reached_mem_trace {k : Nat} :
    .reached k text stack ∈ (machine.trace i s tokens).1 ↔
      ∃ j, k = i + j ∧ tokens[j]? = some text ∧
        machine.runFrom s (tokens.take j) = .ok (.running stack) := by
  fun_induction trace machine i s tokens with
  | case1 => simp
  | case2 => simp [runFrom_halted]
  | case3 => simp
  | case4 position held token rest e he =>
    have hstep : machine.step (.running held) token = .error e := by
      rw [step, he]
      rfl
    rw [← Nat.or_exists_add_one]
    simp [runFrom_cons, hstep, Except.bind, eq_comm]
  | case5 position held token rest below effect he events result heq ih =>
    have hstep : machine.step (.running held) token = .ok (effect.onto below) := by
      rw [step, he]
      rfl
    have hposition : ∀ j, position + 1 + j = position + (j + 1) := by omega
    simp only [heq, hposition] at ih
    rw [← Nat.or_exists_add_one]
    simp [runFrom_cons, hstep, Except.bind, event?_ne_reached, ih, eq_comm]

/-- The trace of a script tells of every token that the run reaches, and of no other. -/
theorem reached_mem_trace_iff :
    .reached i text stack ∈ (machine.trace 0 (.running []) tokens).1 ↔
      machine.Reaches tokens i stack ∧ tokens[i]? = some text := by
  simp only [reached_mem_trace, zero_add, exists_eq_left', Reaches]
  constructor
  · rintro ⟨htext, hrun⟩
    exact ⟨⟨(List.getElem?_eq_some_iff.1 htext).1.le, hrun⟩, htext⟩
  · rintro ⟨⟨-, hrun⟩, htext⟩
    exact ⟨htext, hrun⟩

end Machine

/-- What happens to a script is settled by the shortest of its beginnings that fails or halts.  A
script that fails goes on to fail in the same way, and a script that halts goes on to leave `false`,
whatever more tokens are there; more tokens behind any other script run on the stack that it leaves.
A script that fails or halts does so at one of its tokens, and the run of the tokens up to that one is
the same, whatever stands behind them. -/
theorem settled_where_it_stops (machine : Machine) (tokens : List String) :
    (∀ e, machine.run tokens = .error e → ∀ more, machine.run (tokens ++ more) = .error e) ∧
    (machine.runFrom (.running []) tokens = .ok .halted →
      ∀ more, machine.run (tokens ++ more) = .ok [.bool false]) ∧
    (∀ stack, machine.runFrom (.running []) tokens = .ok (.running stack) →
      ∀ more, machine.run (tokens ++ more) =
        (machine.runFrom (.running stack) more).map State.result) ∧
    ∀ outcome, Stopped outcome → machine.runFrom (.running []) tokens = outcome →
      ∃! i, machine.StopsAt tokens i outcome ∧
        ∀ more, machine.run (tokens.take (i + 1) ++ more) = outcome.map State.result := by
  refine ⟨?_, ?_, ?_, ?_⟩
  · intro e hrun more
    have herror := map_eq_error_iff.1 hrun
    rw [Machine.run, Machine.runFrom_append_of_stopped herror (.failed e)]
    rfl
  · intro hhalted more
    rw [Machine.run, Machine.runFrom_append_of_stopped hhalted .halted]
    rfl
  · intro stack hstack more
    exact Machine.run_append hstack
  · intro outcome hstop houtcome
    obtain ⟨i, hi⟩ := Machine.exists_stopsAt houtcome hstop
    refine ⟨i, ⟨hi, ?_⟩, fun j hj => hj.1.unique hi⟩
    intro more
    rw [Machine.run, hi.runFrom_take_append more]

/-- A sum behind a single number fails, two numbers that differ halt the run, and what stands behind
them is not even read.  A second number can still be added to one that was left alone. -/
theorem settled_where_it_stops_numbers :
    (⟨.standard, .sha256⟩ : Machine).run (["1", "ADD"] ++ ["2", "end"]) =
      .error (.stackUnderflow .add 2 1) ∧
    (⟨.standard, .sha256⟩ : Machine).run (["1", "2", "OP_EqualVerify"] ++ ["end", "ADD"]) =
      .ok [.bool false] ∧
    (⟨.standard, .sha256⟩ : Machine).run (["1"] ++ ["2", "ADD"]) =
      ((⟨.standard, .sha256⟩ : Machine).runFrom (.running [.int 1]) ["2", "ADD"]).map
        State.result ∧
    ∃! i, (⟨.standard, .sha256⟩ : Machine).StopsAt ["1", "ADD", "2"] i
        (.error (.stackUnderflow .add 2 1)) ∧
      ∀ more, (⟨.standard, .sha256⟩ : Machine).run (["1", "ADD", "2"].take (i + 1) ++ more) =
        .error (.stackUnderflow .add 2 1) := by
  refine ⟨?_, ?_, ?_, ?_⟩
  · exact (settled_where_it_stops _ ["1", "ADD"]).1 _ (by decide +kernel) _
  · exact (settled_where_it_stops _ ["1", "2", "OP_EqualVerify"]).2.1 (by decide +kernel) _
  · exact (settled_where_it_stops _ ["1"]).2.2.1 _ (by decide +kernel) _
  · exact (settled_where_it_stops _ ["1", "ADD", "2"]).2.2.2 _ (.failed _) (by decide +kernel)

end SigScript
