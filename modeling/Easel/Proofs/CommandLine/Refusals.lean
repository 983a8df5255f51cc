import Easel.CommandLine.Arguments
import Easel.CommandLine.Workspace
import Easel.Proofs.Listing

/-!
# Refused sources

A task other than listing tokens reads its source as a program before it does anything that can be seen. So a syntax
error ends all of these tasks in the same way: with its message, and with everything else as it was, apart from what the
log has noted (`Workspace.result_perform_of_error`).

`Workspace.run_of_source`: how the program ends for a source that can be read, whatever reads its command line and its
settings.
-/

namespace Easel.CommandLine.Workspace

/-! ## Steps -/

/-- What an action gives here, and what it leaves. -/
def result {α : Type} (w : Workspace) (x : ExceptT Failure (StateM Workspace) α) : Except Failure α × Workspace :=
  x.run.run w

section
variable {α β : Type} {x : ExceptT Failure (StateM Workspace) α} {w w' : Workspace}

theorem result_bind_of_ok {a : α} (h : w.result x = (.ok a, w')) (f : α → ExceptT Failure (StateM Workspace) β) :
    w.result (x >>= f) = w'.result (f a) := by
  unfold result at h ⊢
  rw [ExceptT.run_bind, StateT.run_bind, h]
  rfl

theorem result_bind_of_error {e : Failure} (h : w.result x = (.error e, w'))
    (f : α → ExceptT Failure (StateM Workspace) β) : w.result (x >>= f) = (.error e, w') := by
  unfold result at h ⊢
  rw [ExceptT.run_bind, StateT.run_bind, h]
  rfl

end

/-- The workspace with events in the log. -/
def noting (w : Workspace) (verbose : Bool) (events : List Event) : Workspace := w.note (events.map (.event verbose))

/-- The text that a path leads to. -/
def source (w : Workspace) (path : String) : Except FileError String :=
  (if isInput path then .ok w.input else w.read path) >>= FileError.decode

section
variable (w : Workspace) (verbose : Bool)

theorem noting_noting (events events' : List Event) :
    (w.noting verbose events).noting verbose events' = w.noting verbose (events ++ events') := by
  simp [noting, note]

theorem source_noting (events : List Event) (path : String) : (w.noting verbose events).source path = w.source path := rfl

/-- Notes do not matter to the files. -/
theorem write_noting (events : List Event) (path : String) (bytes : ByteArray) :
    (w.noting verbose events).write path bytes = (w.write path bytes).map (noting · verbose events) := by
  unfold write
  cases locate path with
  | file name =>
    dsimp only
    split <;> rfl
  | directory | slashed | below | nullDevice | input | unreachable => rfl

theorem result_log (events : List Event) : w.result (Host.log verbose events) = (.ok (), w.noting verbose events) := rfl

theorem result_print (text : String) :
    w.result (Host.print text) = (.ok (), { w with printed := w.printed ++ text }) := rfl

theorem result_readInput :
    w.result (Except.ok <$> Host.readInput) = (.ok (.ok w.input : Except FileError ByteArray), w) := rfl

theorem result_readFile (path : String) : w.result (Host.readFile path) = (.ok (w.read path), w) := rfl

theorem result_writeFile (path : String) (bytes : ByteArray) :
    w.result (Host.writeFile path bytes) =
      match w.write path bytes with
      | .ok w' => (.ok (.ok ()), w')
      | .error e => (.ok (.error e), w) := by
  unfold result
  simp only [Host.writeFile, ExceptT.run_lift, StateT.run_map, StateT.run_bind, StateT.run_get, pure_bind]
  cases w.write path bytes <;> rfl

theorem result_printDocument {yaml : Yaml.Library} {node : Yaml.Node} {text : String} (h : yaml.write node = .ok text) :
    w.result (printDocument yaml node) = (.ok (), { w with printed := w.printed ++ text }) := by
  rw [printDocument, h]
  exact w.result_print text

/-- The settings are noted, or why there are none. -/
theorem exists_result_readSettings (yaml : Yaml.Library) (r : Request) :
    ∃ event, event.severity = .debug ∧
      w.result (readSettings yaml r) = (.ok (Settings.loadOrDefault yaml w.settingsFile), w.noting r.verbose [event]) := by
  have hfile : w.result Host.settingsFile = (.ok w.settingsFile, w) := rfl
  unfold readSettings
  rw [result_bind_of_ok hfile, Settings.loadOrDefault]
  cases Settings.load yaml w.settingsFile with
  | ok settings => exact ⟨.settings settings, rfl, rfl⟩
  | error reason => exact ⟨.noSettings reason, rfl, rfl⟩

variable {w} {r : Request} {text : String}

theorem result_readSource {path : String} (h : w.source path = .ok text) : w.result (readSource path) = (.ok text, w) := by
  unfold Workspace.source at h
  unfold readSource
  split at h
  · next hinput =>
    rw [if_pos hinput, result_bind_of_ok w.result_readInput]
    simp only [h]
    rfl
  · next hinput =>
    rw [if_neg hinput, result_bind_of_ok (w.result_readFile path)]
    simp only [h]
    rfl

/-- The tokens of a source that mean nothing are noted, whether or not the source is a program. -/
theorem result_readProgram (h : w.source r.file = .ok text) :
    w.result (readProgram r) =
      ((Program.read text).mapError .source, w.noting r.verbose ((Program.strays text).map .stray)) := by
  unfold readProgram
  rw [result_bind_of_ok (result_readSource h), result_bind_of_ok (w.result_log r.verbose _)]
  cases Program.read text <;> rfl

end

/-! ## Tasks -/

section
variable {w : Workspace} {yaml : Yaml.Library} {r : Request} {text : String}

/-- A syntax error ends every task but one, and none of them has done anything before but to note what it has read. -/
theorem result_perform_of_error {e : SyntaxError} (hsource : w.source r.file = .ok text)
    (he : Program.read text = .error e) (htask : r.task ≠ .tokens) :
    ∃ events : List Event, (∀ event ∈ events, event.severity = .debug) ∧
      w.result (r.perform yaml) = (.error (.source e), w.noting r.verbose events) := by
  have hread {w' : Workspace} (hsource' : w'.source r.file = .ok text) :
      w'.result (readProgram r) = (.error (.source e), w'.noting r.verbose ((Program.strays text).map .stray)) := by
    rw [result_readProgram hsource', he]
    rfl
  have hstrays : ∀ event ∈ (Program.strays text).map Event.stray, event.severity = .debug :=
    List.forall_mem_map.2 fun _ _ => rfl
  obtain ⟨event, hevent, hsettings⟩ := w.exists_result_readSettings yaml r
  have hevents : ∀ event' ∈ event :: (Program.strays text).map Event.stray, event'.severity = .debug :=
    List.forall_mem_cons.2 ⟨hevent, hstrays⟩
  have hafter := hread ((w.source_noting r.verbose [event] r.file).trans hsource)
  rw [noting_noting] at hafter
  unfold Request.perform
  cases h : r.task with
  | run d => exact ⟨_, hevents, (result_bind_of_ok hsettings _).trans (result_bind_of_error hafter _)⟩
  | check => exact ⟨_, hstrays, result_bind_of_error (hread hsource) _⟩
  | tokens => exact absurd h htask
  | ast => exact ⟨_, hstrays, result_bind_of_error (hread hsource) _⟩
  | trace => exact ⟨_, hevents, (result_bind_of_ok hsettings _).trans (result_bind_of_error hafter _)⟩

/-- Tokens are listed whether or not they are a program. -/
theorem exists_result_perform_tokens (hyaml : yaml.WritesSingleTags) (hsource : w.source r.file = .ok text)
    (htask : r.task = .tokens) : ∃ w', w.result (r.perform yaml) = (.ok (), w') := by
  obtain ⟨listing, hlisting⟩ := hyaml _ (Listing.hasSingleTags_tokens (tokenize text))
  unfold Request.perform
  rw [htask]
  exact ⟨_, (result_bind_of_ok (result_readSource hsource) _).trans (w.result_printDocument hlisting)⟩

/-- A drawing and its preview stay within their buffers. -/
def StaysWithin (d : Drawing) (settings : Settings) (p : Program) : Prop :=
  ∃ f, (d.machine settings p).surface = some f ∧ (f.preview? (UInt64.ofNat settings.previewColumns)).isSome

theorem result_writeImage_cases (w : Workspace) (r : Request) (d : Drawing) (f : Framebuffer) :
    (∃ w', w.result (writeImage r d f) = (.ok (), w')) ∨
    ∃ out ∈ d.out, ∃ e, w.write out f.toPgm = .error e ∧ w.result (writeImage r d f) = (.error (.file e), w) := by
  unfold writeImage
  cases d.out with
  | none => exact .inl ⟨w, rfl⟩
  | some out =>
    have hresult := w.result_writeFile out f.toPgm
    cases hwrite : w.write out f.toPgm with
    | ok w' =>
      rw [hwrite] at hresult
      exact .inl ⟨_, (result_bind_of_ok hresult _).trans (w'.result_log r.verbose _)⟩
    | error e =>
      rw [hwrite] at hresult
      exact .inr ⟨out, rfl, e, hwrite, result_bind_of_ok hresult _⟩

theorem result_showPreview_cases (w : Workspace) (settings : Settings) (d : Drawing) (f : Framebuffer) :
    (∃ w', w.result (showPreview settings d f) = (.ok (), w')) ∨
    (f.preview? (UInt64.ofNat settings.previewColumns) = none ∧
      w.result (showPreview settings d f) = (.error .bounds, w)) := by
  unfold showPreview
  cases d.preview with
  | false => exact .inl ⟨w, rfl⟩
  | true =>
    cases f.preview? (UInt64.ofNat settings.previewColumns) with
    | some text => exact .inl ⟨_, w.result_print text⟩
    | none => exact .inr ⟨rfl, rfl⟩

/-- A program is drawn. Nothing but the file for the image or an index out of bounds can be in the way. -/
theorem result_draw_cases {d : Drawing} {p : Program} (hsource : w.source r.file = .ok text)
    (hp : Program.read text = .ok p) :
    (∃ w', w.result (draw yaml r d) = (.ok (), w')) ∨
    (¬ StaysWithin d (Settings.loadOrDefault yaml w.settingsFile) p ∧
      ∃ w', w.result (draw yaml r d) = (.error .bounds, w')) ∨
    ∃ out ∈ d.out, ∃ image e, w.write out image = .error e ∧
      ∃ w', w.result (draw yaml r d) = (.error (.file e), w') := by
  obtain ⟨event, -, hsettings⟩ := w.exists_result_readSettings yaml r
  generalize Settings.loadOrDefault yaml w.settingsFile = settings at *
  have hread := result_readProgram ((w.source_noting r.verbose [event] r.file).trans hsource)
  rw [hp, noting_noting] at hread
  unfold draw
  rw [result_bind_of_ok hsettings, result_bind_of_ok hread]
  dsimp only
  rw [result_bind_of_ok (result_log _ r.verbose _), noting_noting]
  cases hsurface : (d.machine settings p).surface with
  | none =>
    refine .inr (.inl ⟨?_, _, rfl⟩)
    rintro ⟨f, hf, -⟩
    rw [hsurface] at hf
    cases hf
  | some f =>
    have hwithin {w : Workspace} : w.result (within (some f)) = (.ok f, w) := rfl
    rw [result_bind_of_ok hwithin, result_bind_of_ok (result_log _ r.verbose _), noting_noting]
    generalize [event] ++ _ ++ _ ++ _ = events
    rcases result_writeImage_cases (w.noting r.verbose events) r d f with ⟨w', hw'⟩ | ⟨out, hout, e, hwrite, hw'⟩
    · rw [result_bind_of_ok hw']
      rcases result_showPreview_cases w' settings d f with hok | ⟨hnone, hbounds⟩
      · exact .inl hok
      · refine .inr (.inl ⟨?_, w', hbounds⟩)
        rintro ⟨f', hf', hsome⟩
        rw [hsurface, Option.some_inj] at hf'
        rw [← hf', hnone] at hsome
        cases hsome
    · rw [result_bind_of_error hw']
      rw [write_noting] at hwrite
      cases himage : w.write out f.toPgm with
      | ok w'' =>
        rw [himage] at hwrite
        cases hwrite
      | error e' =>
        rw [himage] at hwrite
        cases hwrite
        exact .inr (.inr ⟨out, hout, f.toPgm, e, himage, _, rfl⟩)

/-- Every task but drawing is done with a program. -/
theorem exists_result_perform {p : Program} (hyaml : yaml.WritesSingleTags) (hsource : w.source r.file = .ok text)
    (hp : Program.read text = .ok p) (htask : ∀ d, r.task ≠ .run d) : ∃ w', w.result (r.perform yaml) = (.ok (), w') := by
  have hread {w' : Workspace} (hsource' : w'.source r.file = .ok text) :
      w'.result (readProgram r) = (.ok p, w'.noting r.verbose ((Program.strays text).map .stray)) := by
    rw [result_readProgram hsource', hp]
    rfl
  cases h : r.task with
  | tokens => exact exists_result_perform_tokens hyaml hsource h
  | run d => exact absurd h (htask d)
  | check =>
    unfold Request.perform
    rw [h]
    exact ⟨_, (result_bind_of_ok (hread hsource) _).trans (result_print _ _)⟩
  | ast =>
    obtain ⟨listing, hlisting⟩ := hyaml _ (Listing.hasSingleTags_program p)
    unfold Request.perform
    rw [h]
    exact ⟨_, (result_bind_of_ok (hread hsource) _).trans (result_printDocument _ hlisting)⟩
  | trace =>
    obtain ⟨event, -, hsettings⟩ := w.exists_result_readSettings yaml r
    have hafter := hread ((w.source_noting r.verbose [event] r.file).trans hsource)
    unfold Request.perform
    rw [h]
    dsimp only
    rw [result_bind_of_ok hsettings, result_bind_of_ok hafter, result_bind_of_ok (result_log _ r.verbose _)]
    obtain ⟨listing, hlisting⟩ := hyaml _ (Listing.hasSingleTags_trace _)
    exact ⟨_, result_printDocument _ hlisting⟩

end

/-! ## Messages -/

theorem head?_append {c : Char} {s : String} (h : s.toList.head? = some c) (t : String) :
    (s ++ t).toList.head? = some c := by
  rw [String.toList_append, List.head?_append, h]
  rfl

theorem head?_message (e : SyntaxError) : e.message.toList.head? = some 'u' ∨ e.message.toList.head? = some 'e' := by
  obtain ⟨cause, position⟩ := e
  simp only [SyntaxError.message, String.append_assoc]
  cases cause with
  | unknownCommand word => exact .inl (head?_append (head?_append (head?_append (by decide +kernel) _) _) _)
  | expectedNumber found => exact .inr (head?_append (head?_append (by decide +kernel) _) _)
  | expectedIdentifier found => exact .inr (head?_append (head?_append (by decide +kernel) _) _)
  | unterminatedBlock => exact .inl (head?_append (by decide +kernel) _)

/-- The messages of syntax errors start with other letters than those of files. -/
theorem message_ne_message (e : SyntaxError) (f : FileError) : e.message ≠ f.message := by
  have hf : f.message.toList.head? ≠ some 'u' ∧ f.message.toList.head? ≠ some 'e' := by
    cases f <;> decide +kernel
  intro h
  have he := head?_message e
  rw [h] at he
  exact he.elim hf.1 hf.2

/-- The line for a syntax error. -/
def errorLine (e : SyntaxError) : String := "error: " ++ e.message ++ "\n"

theorem errorLine_ne_report {e : SyntaxError} {f : FileError} : errorLine e ≠ (Failure.file f).report := by
  intro h
  have hline : "error: " ++ e.message ++ "\n" = "error: " ++ f.message ++ "\n" := h
  exact message_ne_message e f (by simpa [← String.toList_inj] using hline)

theorem join_eq_empty {lines : List String} (h : ∀ line ∈ lines, line = "") : String.join lines = "" := by
  induction lines with
  | nil => rfl
  | cons line lines ih =>
    obtain ⟨rfl, hlines⟩ := List.forall_mem_cons.1 h
    rw [String.join_cons, ih hlines]
    rfl

/-- Behind what was on the standard error stands what the log makes of the new events, and then what is printed. -/
theorem exists_errors_noting (shown : Nat → Bool → Event → String) (w : Workspace) (verbose : Bool)
    (events : List Event) (line : String) :
    ∃ logged, ((w.noting verbose events).note [.text line]).errors shown = w.errors shown ++ logged ++ line ∧
      ((∀ time, ∀ event ∈ events, shown time verbose event = "") → logged = "") := by
  refine ⟨String.join ((events.map (.event verbose)).mapIdx fun i => Note.render shown (i + w.notes.length)), ?_, ?_⟩
  · simp only [errors, noting, note, List.mapIdx_append, String.join_append, List.mapIdx_cons, List.mapIdx_nil,
      String.join_cons, String.join_nil, String.append_empty, Note.render]
  · intro hshown
    refine join_eq_empty fun line hline => ?_
    obtain ⟨i, hi, rfl⟩ := List.mem_mapIdx.1 hline
    rw [List.getElem_map]
    exact hshown _ _ (List.getElem_mem _)

/-! ## Runs -/

section
variable {w : Workspace} {libraries : Libraries} {arguments : List String} {r : Request}

theorem run_eq (h : libraries.arguments arguments = .ok r) :
    w.run libraries arguments =
      match w.result (r.perform libraries.yaml) with
      | (.ok (), w') => (0, w')
      | (.error f, w') => (f.code, w'.note [.text f.report]) := by
  unfold run execute result
  rw [h]
  simp only [StateT.run_bind]
  rcases StateT.run (r.perform libraries.yaml).run w with ⟨_ | _, w'⟩ <;> rfl

/-- The program ends with a syntax error: its code says that it has failed, and the last it has printed is a message for
one. -/
def Refuses (w : Workspace) (libraries : Libraries) (arguments : List String) : Prop :=
  ∃ (e : SyntaxError) (w' : Workspace), w.run libraries arguments = (1, w'.note [.text (errorLine e)])

theorem not_refuses_of_code (h : (w.run libraries arguments).1 ≠ 1) : ¬ w.Refuses libraries arguments := by
  rintro ⟨e, w', hw'⟩
  rw [hw'] at h
  exact h rfl

theorem not_refuses_of_file {f : FileError} {w' : Workspace}
    (h : w.run libraries arguments = (1, w'.note [.text (Failure.file f).report])) : ¬ w.Refuses libraries arguments := by
  rintro ⟨e, w'', hw''⟩
  have hnotes : w''.notes ++ [.text (errorLine e)] = w'.notes ++ [.text (Failure.file f).report] :=
    congrArg (fun result => result.2.notes) (hw''.symm.trans h)
  have hlast := (List.append_inj' hnotes rfl).2
  exact errorLine_ne_report (Note.text.inj (List.head_eq_of_cons_eq hlast))

theorem code_of_result (harguments : libraries.arguments arguments = .ok r)
    (h : ∃ w', w.result (r.perform libraries.yaml) = (.ok (), w')) : (w.run libraries arguments).1 = 0 := by
  obtain ⟨w', h⟩ := h
  rw [run_eq harguments, h]

theorem run_of_error {text : String} {e : SyntaxError} (harguments : libraries.arguments arguments = .ok r)
    (hsource : w.source r.file = .ok text) (he : Program.read text = .error e) (htask : r.task ≠ .tokens) :
    ∃ events : List Event, (∀ event ∈ events, event.severity = .debug) ∧
      w.run libraries arguments = (1, (w.noting r.verbose events).note [.text (errorLine e)]) := by
  obtain ⟨events, hevents, hresult⟩ := result_perform_of_error hsource he htask
  refine ⟨events, hevents, ?_⟩
  rw [run_eq harguments, hresult]
  rfl

/-- A program is not refused, even where it is not drawn to the end. -/
theorem not_refuses_of_ok {text : String} {p : Program} (hyaml : libraries.yaml.WritesSingleTags)
    (harguments : libraries.arguments arguments = .ok r) (hsource : w.source r.file = .ok text)
    (hp : Program.read text = .ok p) : ¬ w.Refuses libraries arguments := by
  have hdone (h : ∃ w', w.result (r.perform libraries.yaml) = (.ok (), w')) : ¬ w.Refuses libraries arguments :=
    not_refuses_of_code (by rw [code_of_result harguments h]; decide)
  by_cases htask : ∃ d, r.task = .run d
  · obtain ⟨d, hd⟩ := htask
    have hperform : r.perform libraries.yaml = (draw libraries.yaml r d : ExceptT Failure (StateM Workspace) Unit) := by
      rw [Request.perform, hd]
    have hrun := run_eq (w := w) harguments
    rw [hperform] at hrun hdone
    rcases result_draw_cases hsource hp with hok | ⟨-, w', hbounds⟩ | ⟨-, -, -, f, -, w', hfile⟩
    · exact hdone hok
    · rw [hbounds] at hrun
      have hcode : Failure.bounds.code ≠ 1 := by decide
      exact not_refuses_of_code (by rwa [hrun])
    · rw [hfile] at hrun
      exact not_refuses_of_file hrun
  · rw [not_exists] at htask
    exact hdone (exists_result_perform hyaml hsource hp htask)

end

/-- A request for a source that can be read, from any command line and with any settings. If the task has to do with
programs and the source has a syntax error, then the program ends with code 1 and that error's message on the standard
error, and nothing has changed but what the log has noted there before; it shows nothing of that unless it shows events
for debugging. So all of these tasks refuse the same sources. Any other source is checked, listed and traced with code 0,
and drawn with code 0 if the drawing stays within its buffers and the file for the image can be written. Tokens are
listed with code 0 in any case. -/
theorem run_of_source (libraries : Libraries) (hyaml : libraries.yaml.WritesSingleTags) (w : Workspace)
    (arguments : List String) (r : Request) (text : String) (harguments : libraries.arguments arguments = .ok r)
    (hsource : w.source r.file = .ok text) :
    (r.task ≠ .tokens →
      (∀ e, Program.read text = .error e →
        (∃ events : List Event, (∀ event ∈ events, event.severity = .debug) ∧
          w.run libraries arguments = (1, (w.noting r.verbose events).note [.text ("error: " ++ e.message ++ "\n")])) ∧
        ∀ shown : Nat → Bool → Event → String, ∃ logged,
          (w.run libraries arguments).2.errors shown = w.errors shown ++ logged ++ ("error: " ++ e.message ++ "\n") ∧
          ((∀ time event, event.severity = .debug → shown time r.verbose event = "") → logged = "")) ∧
      (w.Refuses libraries arguments ↔ ∃ e, Program.read text = .error e)) ∧
    (∀ p, Program.read text = .ok p →
      ((∀ d, r.task ≠ .run d) → (w.run libraries arguments).1 = 0) ∧
      ∀ d, r.task = .run d → StaysWithin d (Settings.loadOrDefault libraries.yaml w.settingsFile) p →
        (∀ out ∈ d.out, ∀ image, ∃ w', w.write out image = .ok w') → (w.run libraries arguments).1 = 0) ∧
    (r.task = .tokens → (w.run libraries arguments).1 = 0) := by
  refine ⟨fun htask => ⟨fun e he => ?_, ?_, ?_⟩, fun p hp => ⟨fun htask => ?_, fun d hd hwithin hwrite => ?_⟩,
    fun htask => code_of_result harguments (exists_result_perform_tokens hyaml hsource htask)⟩
  · obtain ⟨events, hevents, hrun⟩ := run_of_error harguments hsource he htask
    refine ⟨⟨events, hevents, hrun⟩, fun shown => ?_⟩
    obtain ⟨logged, hlogged, hquiet⟩ := exists_errors_noting shown w r.verbose events (errorLine e)
    rw [hrun]
    exact ⟨logged, hlogged, fun hshown => hquiet fun time event hmem => hshown time event (hevents event hmem)⟩
  · intro hrefuses
    cases hread : Program.read text with
    | error e => exact ⟨e, rfl⟩
    | ok p => exact absurd hrefuses (not_refuses_of_ok hyaml harguments hsource hread)
  · rintro ⟨e, he⟩
    obtain ⟨events, -, hrun⟩ := run_of_error harguments hsource he htask
    exact ⟨e, _, hrun⟩
  · exact code_of_result harguments (exists_result_perform hyaml hsource hp htask)
  · refine code_of_result harguments ?_
    rw [Request.perform, hd]
    rcases result_draw_cases hsource hp with hok | ⟨hbounds, -⟩ | ⟨out, hout, image, f, hf, -⟩
    · exact hok
    · exact absurd hwithin hbounds
    · obtain ⟨w', hw'⟩ := hwrite out hout image
      rw [hw'] at hf
      cases hf

/-- A text with a syntax error is drawn over an image that is there already, with a log that notes more. -/
theorem run_of_source_unfinished :
    let w : Workspace := ⟨[("a", "pen".toUTF8), ("b", "P5".toUTF8)], "".toUTF8, none, "", []⟩
    let ending := w.run ⟨Arguments.parse, Yaml.Tree.library⟩ ["-v", "run", "a", "-o", "b", "--preview"]
    ending.1 = 1 ∧ ending.2.printed = "" ∧ ending.2.files = w.files ∧
      ending.2.errors (fun _ _ _ => "") = "error: expected a number, but found end of input on line 1, column 0\n" := by
  intro w ending
  have harguments : Arguments.parse ["-v", "run", "a", "-o", "b", "--preview"] =
      .ok ⟨.run ⟨some "b", none, none, true⟩, "a", true⟩ := by rfl
  have hparts : "a".splitOn "/" = ["a"] := by
    rw [String.splitOn, if_neg (by decide), String.splitOnAux, if_neg (by decide), if_neg (by decide),
      String.splitOnAux, if_pos (by decide)]
    rfl
  have hinput : isInput "a" = false := by
    rw [isInput, hparts]
    rfl
  have hlocate : locate "a" = .file "a" := by
    rw [locate, hparts]
    decide +kernel
  have hfile : w.read "a" = .ok "pen".toUTF8 := by
    rw [read, hlocate]
    rfl
  have hsource : w.source "a" = .ok "pen" := by
    rw [source, hinput, hfile]
    exact FileError.decode_toUTF8 "pen"
  have htokens : (tokenize "pen").filter Token.isGrammatical = [⟨.command, "pen", ⟨1, 0⟩⟩] := by decide +kernel
  have hkeyword : Keyword.ofWord? "pen" = some .pen := by decide +kernel
  have hread : Program.read "pen" = .error ⟨.expectedNumber .endOfInput, ⟨1, 0⟩⟩ := by
    rw [Program.read, Program.parse, htokens, Draft.extend, if_pos rfl, hkeyword]
    rfl
  have hsettled := run_of_source ⟨Arguments.parse, Yaml.Tree.library⟩ Yaml.Tree.writesSingleTags_library w
    ["-v", "run", "a", "-o", "b", "--preview"] ⟨.run ⟨some "b", none, none, true⟩, "a", true⟩ "pen" harguments hsource
  obtain ⟨⟨events, -, hrun⟩, herrors⟩ := (hsettled.1 (by simp)).1 _ hread
  obtain ⟨logged, hlogged, hquiet⟩ := herrors fun _ _ _ => ""
  rw [hquiet fun _ _ _ => rfl] at hlogged
  refine ⟨congrArg Prod.fst hrun, congrArg (·.2.printed) hrun, congrArg (·.2.files) hrun, hlogged.trans ?_⟩
  decide +kernel

end Easel.CommandLine.Workspace
