import TokenCorpus.CommandLine.Program
import TokenCorpus.Proofs.Corpus.Outcomes

/-!
What a command line leaves behind, told from the work of its command and from its console. No
command panics.
-/

namespace TokenCorpus

/-- How a command treats files that it is given an encoding and an extension for. -/
def Miner.ofCommand (encoding : EncodingConfig) (extension : Text) : Miner :=
  .ofScripts ((BuildOptions.ofEncoding encoding).withExtension extension)

theorem Miner.ofScripts_eq_ofCommand (encoding : EncodingConfig) (extension : Text) :
    ofScripts ((BuildOptions.ofEncoding encoding).withExtension extension) =
      ofCommand encoding extension := rfl

namespace Console

/-- A console without a limit takes a text. If the text ends a line, nothing is held back. -/
theorem put_of_unlimited {c : Console} (hlimit : c.limit = none) (t : Text) :
    ∃ after, (put t).run.run c = (.ok (), after) ∧ after.limit = none ∧
      after.shown ++ after.line = c.shown ++ c.line ++ t ∧
      ((cutLines t).1 = t → t ≠ [] → after.line = []) := by
  obtain ⟨shown, line, limit⟩ := c
  cases hlimit
  have hcut := cutLines_append t
  generalize hlines : cutLines t = lines at hcut
  obtain ⟨ended, begun⟩ := lines
  subst hcut
  cases ended with
  | nil =>
    refine ⟨⟨shown, line ++ begun, none⟩, ?_, rfl, (List.append_assoc ..).symm, ?_⟩
    · simp only [put, hlines]
      rfl
    · intro hwhole hne
      exact absurd hwhole.symm hne
  | cons first ended =>
    refine ⟨⟨shown ++ (line ++ first :: ended), begun, none⟩, ?_, rfl, by simp, ?_⟩
    · simp only [put, hlines]
      rfl
    · intro hwhole _
      simpa using hwhole

theorem putAll_cons {c next : Console} {t : Text} (h : (put t).run.run c = (.ok (), next))
    (texts : List Text) : c.putAll (t :: texts) = next.putAll texts := by
  rw [putAll, putAll, List.forM_eq_forM, List.forM_cons, ExceptT.run_bind, StateT.run_bind, h]
  rfl

/-- A console without a limit shows a line, behind what it has held back. -/
theorem putAll_line {c : Console} (hlimit : c.limit = none) (t : Text) :
    c.putAll [t, lineEnd] = (.ok (), ⟨c.shown ++ c.line ++ t ++ lineEnd, [], none⟩) := by
  obtain ⟨begun, hbegun, hlimit', heq, -⟩ := put_of_unlimited hlimit t
  obtain ⟨⟨shown, line, limit⟩, hended, rfl, heq', hline⟩ := put_of_unlimited hlimit' lineEnd
  rw [putAll_cons hbegun, putAll_cons hended]
  cases hline (by decide) (by decide)
  rw [heq, List.append_nil] at heq'
  cases heq'
  rfl

end Console

/-- No command asks for names that are too wide, so none panics. -/
theorem Command.perform_ne_panic (c : Command) (fs : FileSystem) :
    (c.perform fs).result ≠ .error .panic := by
  intro h
  cases c with
  | dump c =>
    simp only [perform, DumpCommand.perform] at h
    split at h
    · next cause hbuild =>
      cases cause with
      | raised e => cases h
      | panic =>
        have hwide : maxSequenceWidth < 8 := Miner.maxSequenceWidth_lt_of_panic hbuild
        exact absurd hwide (by decide)
    · split at h
      · cases h
      · split at h <;> cases h
  | vocabulary c =>
    simp only [perform, VocabularyCommand.perform] at h
    split at h
    · next cause hcount =>
      cases cause with
      | raised e => cases h
      | panic => exact Miner.countTokens_ne_panic _ _ _ hcount
    · split at h <;> cases h
  | display c =>
    simp only [perform, ShowCommand.perform] at h
    split at h <;> cases h

namespace Program

variable {arguments : List Text} {invocation : Invocation} {fs : FileSystem} {console : Console}
  {coloured : Bool}

/-- A command that is ended before its time prints nothing. -/
theorem run_of_error (h : Invocation.ofArguments arguments = .ok invocation)
    {cause : Abort CommandError} (hresult : (invocation.command.perform fs).result = .error cause) :
    run arguments fs console coloured =
      ⟨(invocation.command.perform fs).fs,
        logLines invocation.logLevel (invocation.command.perform fs).log, console,
        .ofAbort cause⟩ := by
  rw [run, h]
  simp only [hresult]

/-- A command that succeeds is done if its summary can be printed. -/
theorem run_of_printed (h : Invocation.ofArguments arguments = .ok invocation)
    {summary : List Stretch} (hresult : (invocation.command.perform fs).result = .ok summary)
    {after : Console}
    (hprinted : console.putAll (summary.flatMap (Stretch.render coloured)) = (.ok (), after)) :
    run arguments fs console coloured =
      ⟨(invocation.command.perform fs).fs,
        logLines invocation.logLevel (invocation.command.perform fs).log, after, .done⟩ := by
  rw [run, h]
  simp only [hresult, hprinted]

/-- What a command leaves behind that has been asked for and performed. -/
theorem run_of_command (h : Invocation.ofArguments arguments = .ok invocation) (fs : FileSystem)
    (console : Console) (coloured : Bool) :
    (run arguments fs console coloured).fs = (invocation.command.perform fs).fs ∧
    (∀ e, (invocation.command.perform fs).result = .error (.raised e) →
      (run arguments fs console coloured).ending = .failed e) ∧
    ((run arguments fs console coloured).ending.status = 0 →
      ∃ summary, (invocation.command.perform fs).result = .ok summary) := by
  cases hresult : (invocation.command.perform fs).result with
  | error cause =>
    rw [run_of_error h hresult]
    refine ⟨rfl, fun e he => ?_, fun hstatus => ?_⟩
    · cases he
      rfl
    · cases cause <;> cases hstatus
  | ok summary =>
    refine ⟨?_, fun e' he' => ?_, fun _ => ⟨summary, rfl⟩⟩
    · rw [run, h]
      simp only [hresult]
      split <;> rfl
    · cases he'

theorem run_ne_panicked (arguments : List Text) (fs : FileSystem) (console : Console)
    (coloured : Bool) : (run arguments fs console coloured).ending ≠ .panicked := by
  cases hinvocation : Invocation.ofArguments arguments with
  | error reason =>
    rw [run, hinvocation]
    simp
  | ok invocation =>
    cases hresult : (invocation.command.perform fs).result with
    | error cause =>
      rw [run_of_error hinvocation hresult]
      cases cause with
      | raised e => simp [Ending.ofAbort]
      | panic => exact absurd hresult (invocation.command.perform_ne_panic fs)
    | ok summary =>
      rw [run, hinvocation]
      simp only [hresult]
      split <;> simp

end Program

end TokenCorpus
