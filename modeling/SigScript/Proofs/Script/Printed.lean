import Mathlib
import SigScript.Proofs.Script.Literal
import SigScript.Proofs.Script.Provenance

/-!
# A stack printed as a script

The texts of the values on a stack are a script that rebuilds the stack (`runFrom_texts`), if each of
them is a literal.  On the stack of a run only booleans are none: no opcode makes a signature or a
public key, so it has come from a literal, and can be read again from its text
(`readable_of_runFrom`).
-/

namespace SigScript

theorem Value.IsPlain.readable {v : Value} (h : v.IsPlain) : v.Readable := by
  cases v with
  | signature sig => cases h
  | publicKey key => cases h
  | _ => trivial

namespace Machine

variable {machine : Machine} {below stack : Stack} {s : State} {tokens : List String}

theorem readable_of_runFrom (h : machine.runFrom (.running []) tokens = .ok s) :
    ∀ v ∈ s.result, v.Readable :=
  forall_mem_of_runFrom (fun _ hv => hv.readable)
    (fun _ _ _ hv => (Token.readable_of_literal? hv).1) (by simp [State.result]) h

/-! ### Texts as tokens -/

theorem runFrom_texts (h : ∀ v ∈ stack, v.Readable ∧ v.kind ≠ .bool) :
    machine.runFrom (.running below) (stack.map Value.text) = .ok (.running (below ++ stack)) := by
  induction stack generalizing below with
  | nil => rw [List.map_nil, runFrom_nil, List.append_nil]
  | cons v stack ih =>
    obtain ⟨hv, hstack⟩ := List.forall_mem_cons.1 h
    have hstep : machine.step (.running below) v.text = .ok (.running (below ++ [v])) :=
      step_literal (Token.literal?_text hv.1 hv.2)
    have hrest := @ih (below ++ [v]) hstack
    rw [List.append_assoc, List.singleton_append] at hrest
    exact runFrom_cons_eq_ok_iff.2 ⟨_, hstep, hrest⟩

end Machine

/-- The texts of the values that a script leaves can take its place in front of any other tokens.  They
rebuild the stack, and they are found again in a text in which they stand with blanks between them.
Booleans have no literal, so there must be none on the stack. -/
theorem printed_stack_replaces_script {machine : Machine} {script : List String} {stack : Stack}
    (h : machine.runFrom (.running []) script = .ok (.running stack))
    (hbool : ∀ v ∈ stack, v.kind ≠ .bool) :
    (∀ more, machine.run (script ++ more) = machine.run (stack.map Value.text ++ more)) ∧
    machine.run (stack.map Value.text) = .ok stack ∧
    ∀ gap, (∀ n, Text.IsGap (gap n)) →
      Text.words (Text.spaced gap (stack.map Value.text)) = stack.map Value.text := by
  have htexts : machine.runFrom (.running []) (stack.map Value.text) = .ok (.running stack) :=
    Machine.runFrom_texts fun v hv => ⟨Machine.readable_of_runFrom h v hv, hbool v hv⟩
  refine ⟨?_, ?_, ?_⟩
  · intro more
    rw [Machine.run_append h, Machine.run_append htexts]
  · exact Machine.run_eq_ok_iff.2 ⟨_, htexts, rfl⟩
  · intro gap hgap
    apply Text.words_spaced hgap
    simp [Value.isWord_text]

/-- A sum, an empty byte string and a signature are printed as three words. -/
theorem printed_stack_replaces_script_three :
    (⟨.standard, .sha256⟩ : Machine).run
        (["1", "-2", "ADD", "bytes_utf8:", "sig:MAYCAQECAQU="] ++ ["EQUAL"]) =
      (⟨.standard, .sha256⟩ : Machine).run (["-1", "base64:", "sig:MAYCAQECAQU="] ++ ["EQUAL"]) ∧
    (⟨.standard, .sha256⟩ : Machine).run ["-1", "base64:", "sig:MAYCAQECAQU="] =
      .ok [.int (-1), .bytes [], .signature ⟨1, 5⟩] ∧
    Text.words (Text.spaced (fun _ => "\n") ["-1", "base64:", "sig:MAYCAQECAQU="]) =
      ["-1", "base64:", "sig:MAYCAQECAQU="] := by
  have hrun : (⟨.standard, .sha256⟩ : Machine).runFrom (.running [])
      ["1", "-2", "ADD", "bytes_utf8:", "sig:MAYCAQECAQU="] =
      .ok (.running [.int (-1), .bytes [], .signature ⟨1, 5⟩]) := by decide +kernel
  have htexts : [.int (-1), .bytes [], .signature ⟨1, 5⟩].map Value.text =
      ["-1", "base64:", "sig:MAYCAQECAQU="] := by decide +kernel
  have hgap : Text.IsGap "\n" := by
    simp [Text.IsGap]
    decide
  obtain ⟨hmore, hsame, hwords⟩ := printed_stack_replaces_script hrun (by decide)
  rw [htexts] at hmore hsame hwords
  exact ⟨hmore _, hsame, hwords _ fun _ => hgap⟩

end SigScript
