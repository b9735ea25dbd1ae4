import Mathlib
import SigScript.Proofs.CommandLine.Output
import SigScript.Proofs.Script.Printed

/-!
# The stack behind a standard output

The text of a stack is the text of no other stack (`printed_stacks_are_unambiguous`).  A value is found
again from its text, since the text is its literal, or the word for a boolean, which is no literal at
all.  Texts of values hold no blanks, so the blanks of the text of a stack are those behind its commas,
and cut it into the texts of its values.  In this way the standard output of a command line tells the
stack that its script has left, or that there is none.
-/

namespace SigScript

/-! ### Values -/

section Value

variable {v w : Value}

theorem Value.eq_bool_of_kind (h : v.kind = .bool) : ∃ b, v = .bool b := by
  cases v with
  | bool b => exact ⟨b, rfl⟩
  | _ => cases h

/-- The words for booleans are no literals. -/
theorem Token.literal?_text_of_readable (hv : v.Readable) :
    literal? v.text = if v.kind = .bool then none else some v := by
  by_cases hkind : v.kind = .bool
  · have hword : ∀ b, literal? (Value.bool b).text = none := by decide +kernel
    obtain ⟨b, rfl⟩ := Value.eq_bool_of_kind hkind
    exact hword b
  · rw [if_neg hkind, literal?_text hv hkind]

theorem Value.eq_of_text_eq (hv : v.Readable) (hw : w.Readable) (h : v.text = w.text) : v = w := by
  have hliteral := congrArg Token.literal? h
  rw [Token.literal?_text_of_readable hv, Token.literal?_text_of_readable hw] at hliteral
  split_ifs at hliteral with hvbool hwbool hwbool
  · have hword : ∀ b b', (Value.bool b).text = (Value.bool b').text → b = b' := by decide
    obtain ⟨b, rfl⟩ := Value.eq_bool_of_kind hvbool
    obtain ⟨b', rfl⟩ := Value.eq_bool_of_kind hwbool
    rw [hword b b' h]
  · exact Option.some.inj hliteral

end Value

/-! ### Stacks -/

namespace Text

/-- The words with a comma behind each but the last. -/
def punctuated : List String → List String
  | [] => []
  | [word] => [word]
  | word :: rest => (word ++ ",") :: punctuated rest

theorem punctuated_ne_nil {ws : List String} (h : ws ≠ []) : punctuated ws ≠ [] := by
  fun_cases punctuated ws with
  | case1 => exact absurd rfl h
  | case2 => simp
  | case3 => simp

theorem intercalate_comma (ws : List String) :
    ", ".intercalate ws = " ".intercalate (punctuated ws) := by
  fun_induction punctuated ws with
  | case1 => rfl
  | case2 word => rw [String.intercalate_singleton, String.intercalate_singleton]
  | case3 word rest hrest ih =>
    have hcomma : ", " = "," ++ " " := rfl
    rw [String.intercalate_cons_of_ne_nil hrest,
      String.intercalate_cons_of_ne_nil (punctuated_ne_nil hrest), ih, hcomma, ← String.append_assoc]

theorem isWord_of_mem_punctuated {ws : List String} (hws : ∀ w ∈ ws, IsWord w) :
    ∀ w ∈ punctuated ws, IsWord w := by
  fun_induction punctuated ws with
  | case1 => exact hws
  | case2 => exact hws
  | case3 word rest hrest ih =>
    obtain ⟨hword, hothers⟩ := List.forall_mem_cons.1 hws
    refine List.forall_mem_cons.2 ⟨⟨by simp, ?_⟩, ih hothers⟩
    intro c hc
    rw [String.toList_append, List.mem_append] at hc
    obtain hc | hc := hc
    · exact hword.2 c hc
    · obtain rfl : c = ',' := by simpa using hc
      decide

theorem eq_of_punctuated_eq : ∀ {ws ws' : List String}, punctuated ws = punctuated ws' → ws = ws'
  | [], [], _ => rfl
  | [], w :: ws, h => absurd h.symm (punctuated_ne_nil (List.cons_ne_nil w ws))
  | w :: ws, [], h => absurd h (punctuated_ne_nil (List.cons_ne_nil w ws))
  | [_], [_], h => h
  | [_], _ :: w :: ws, h =>
    absurd (List.cons.inj h).2.symm (punctuated_ne_nil (List.cons_ne_nil w ws))
  | _ :: w :: ws, [_], h => absurd (List.cons.inj h).2 (punctuated_ne_nil (List.cons_ne_nil w ws))
  | _ :: _ :: _, _ :: _ :: _, h => by
    obtain ⟨hword, hrest⟩ := List.cons.inj h
    rw [(String.append_left_inj _).1 hword, eq_of_punctuated_eq hrest]

/-- Words can be told apart where commas and blanks stand between them. -/
theorem eq_of_intercalate_comma_eq {ws ws' : List String} (hws : ∀ w ∈ ws, IsWord w)
    (hws' : ∀ w ∈ ws', IsWord w) (h : ", ".intercalate ws = ", ".intercalate ws') : ws = ws' := by
  have hgap : IsGap " " := by
    simp [IsGap]
    decide
  have hwords : ∀ {ws}, (∀ w ∈ ws, IsWord w) → words (", ".intercalate ws) = punctuated ws := by
    intro ws hws
    rw [intercalate_comma, ← spaced_const,
      words_spaced (fun _ => hgap) (isWord_of_mem_punctuated hws)]
  apply eq_of_punctuated_eq
  rw [← hwords hws, h, hwords hws']

end Text

theorem Value.eq_of_map_text_eq {S T : Stack} (hS : ∀ v ∈ S, v.Readable) (hT : ∀ v ∈ T, v.Readable)
    (h : S.map text = T.map text) : S = T := by
  induction S generalizing T with
  | nil => exact (List.map_eq_nil_iff.1 h.symm).symm
  | cons v S ih =>
    cases T with
    | nil => cases h
    | cons w T =>
      obtain ⟨hv, hS⟩ := List.forall_mem_cons.1 hS
      obtain ⟨hw, hT⟩ := List.forall_mem_cons.1 hT
      obtain ⟨htext, hrest⟩ := List.cons.inj h
      rw [eq_of_text_eq hv hw htext, ih hS hT hrest]

theorem Stack.eq_of_text_eq {S T : Stack} (hS : ∀ v ∈ S, v.Readable) (hT : ∀ v ∈ T, v.Readable)
    (h : S.text = T.text) : S = T := by
  have hword : ∀ stack : Stack, ∀ w ∈ stack.map Value.text, Text.IsWord w := by
    simp [Value.isWord_text]
  have hbody := (String.append_right_inj _).1 ((String.append_left_inj _).1 h)
  exact Value.eq_of_map_text_eq hS hT
    (Text.eq_of_intercalate_comma_eq (hword S) (hword T) hbody)

/-! ### Standard output -/

namespace Request

variable {read read' : String → Except ReadError Bytes}

/-- The stack that the script of a request leaves, if there is a script and it runs to its end. -/
def result? (read : String → Except ReadError Bytes) : Request → Option Stack
  | run path settings =>
    match (read path).bind textOfOctets with
    | .ok source =>
      (Machine.run { hash := settings.hash } (Text.trimmedLines source)).toOption
    | .error _ => none
  | nothing | help | invalid .. => none

/-- The standard output of a request with a result: the text of the stack on a line of its own. -/
def shownResult : Option Stack → String
  | some stack => Stack.text stack ++ "\n"
  | none => ""

theorem output_outcome (request : Request) :
    (request.outcome read).output = shownResult (request.result? read) := by
  cases request with
  | nothing => rfl
  | help => rfl
  | invalid settings error => rfl
  | run path settings =>
    rw [outcome, result?]
    cases (read path).bind textOfOctets with
    | error e => rfl
    | ok source =>
      have hshown := congrArg Prod.fst (Outcome.shown_ofScript settings path source)
      refine hshown.trans ?_
      dsimp only
      cases Machine.run { hash := settings.hash } (Text.trimmedLines source) with
      | ok stack => rfl
      | error e => rfl

theorem readable_of_result? {request : Request} {stack : Stack}
    (h : request.result? read = some stack) : ∀ v ∈ stack, v.Readable := by
  cases request with
  | run path settings =>
    rw [result?] at h
    split at h
    · obtain ⟨s, hfrom, rfl⟩ := Machine.run_eq_ok_iff.1 (toOption_eq_some_iff.1 h)
      exact Machine.readable_of_runFrom hfrom
    · cases h
  | _ => cases h

theorem shownResult_ne (stack : Stack) : shownResult (some stack) ≠ shownResult none := by
  intro h
  have hend := congrArg String.toList h
  simp [shownResult] at hend

/-- Two requests with the same standard output have the same result. -/
theorem result?_eq_of_output_eq {request request' : Request}
    (h : (request.outcome read).output = (request'.outcome read').output) :
    request.result? read = request'.result? read' := by
  rw [output_outcome, output_outcome] at h
  cases hresult : request.result? read with
  | none =>
    cases hresult' : request'.result? read' with
    | none => rfl
    | some stack' =>
      rw [hresult, hresult'] at h
      exact absurd h.symm (shownResult_ne stack')
  | some stack =>
    cases hresult' : request'.result? read' with
    | none =>
      rw [hresult, hresult'] at h
      exact absurd h (shownResult_ne stack)
    | some stack' =>
      rw [hresult, hresult'] at h
      have htext := (String.append_left_inj _).1 h
      rw [Stack.eq_of_text_eq (readable_of_result? hresult) (readable_of_result? hresult') htext]

end Request

/-- Stacks with the same text are the same, value by value, with booleans told apart from the integers
that they count as.  Command lines have the same standard output exactly when their scripts leave the
same stack, or both leave none. -/
theorem printed_stacks_are_unambiguous {S T : Stack} (hS : ∀ v ∈ S, v.Readable)
    (hT : ∀ v ∈ T, v.Readable) :
    (S.text = T.text ↔ S = T) ∧
    ∀ (arguments arguments' : List String) (read read' : String → Except ReadError Bytes),
      (respond arguments read).output = (respond arguments' read').output ↔
        (Request.ofArguments arguments).result? read =
          (Request.ofArguments arguments').result? read' := by
  refine ⟨⟨Stack.eq_of_text_eq hS hT, fun h => by rw [h]⟩, fun arguments arguments' read read' => ?_⟩
  constructor
  · exact Request.result?_eq_of_output_eq
  · intro h
    rw [respond, respond, Request.output_outcome, Request.output_outcome, h]

/-- The texts of two stacks differ in a boolean and the integer that it counts as, though the values
agree. -/
theorem printed_stacks_are_unambiguous_one :
    (∀ v ∈ ([.bool true, .bytes []] : Stack), v.Readable) ∧
    (∀ v ∈ ([.int 1, .bytes []] : Stack), v.Readable) ∧
    (Value.bool true).Agrees (.int 1) ∧
    Stack.text [.bool true, .bytes []] ≠ Stack.text [.int 1, .bytes []] := by
  have hbool : ∀ v ∈ ([.bool true, .bytes []] : Stack), v.Readable := by simp [Value.Readable]
  have hint : ∀ v ∈ ([.int 1, .bytes []] : Stack), v.Readable := by simp [Value.Readable]
  refine ⟨hbool, hint, rfl, ?_⟩
  rw [Ne, (printed_stacks_are_unambiguous hbool hint).1]
  decide

end SigScript
