import KeyValueServer.Console.Dialogue
import KeyValueServer.Proofs.Command.Grammar
import KeyValueServer.Proofs.Text.Utf8

/-!
# The word of a report

A line is judged by its first word. The report of a failure names the class of that word, but it
finds the word anew, and to a report a form feed also separates words. What it shows is therefore
the first run of the line without form feeds. That is the word which was judged unless this one
holds a form feed, and only then.
-/

namespace KeyValueServer

namespace Console

open Line

/-- The byte that separates words in a report and not in a command line. -/
def formFeed : UInt8 := 12

theorem isBlank_iff (b : UInt8) : isBlank b = true ↔ b = formFeed ∨ b ∈ separators := by
  simp only [isBlank, formFeed, separators, asciiBytes, Bool.or_eq_true, beq_iff_eq, List.map_cons,
    List.map_nil, List.mem_cons, List.not_mem_nil, or_false]
  tauto

/-- The report that a command of some class has failed, with a word. -/
def report (code : CommandCode) (word : Bytes) : String :=
  "ERROR : in executing command [" ++ code.text ++ "][" ++ String.ofList (Utf8.decodeLossy word) ++
    "]\n"

variable {code : CommandCode} {line : Bytes} {found runs : List Bytes}

theorem report_inj {first second : Bytes} :
    report code first = report code second ↔ Utf8.decodeLossy first = Utf8.decodeLossy second :=
  (String.append_left_inj _).trans ((String.append_right_inj _).trans String.ofList_inj)

/-- The word of a report is the first run without form feeds. -/
theorem failureReport_eq (h : HasWords (formFeed :: separators) line runs) (code : CommandCode) :
    failureReport code line = report code (runs.headD []) := by
  have hruns : words isBlank line = runs :=
    h.words_eq fun b => by rw [isBlank_iff, List.mem_cons]
  subst hruns
  rfl

/-- That run is the first word, if this one holds no form feed. -/
theorem headD_runs (hruns : HasWords (formFeed :: separators) line runs)
    (hfound : HasWords separators line found) (hfree : formFeed ∉ found.headD []) :
    runs.headD [] = found.headD [] := by
  have hblank : words isBlank line = runs :=
    hruns.words_eq fun b => by rw [isBlank_iff, List.mem_cons]
  rw [← hblank, hfound.words_cons isBlank_iff]
  cases found with
  | nil => rfl
  | cons word rest =>
      have hword : words (· == formFeed) word = [word] := by
        refine words_of_forall_not (hfound.of_mem List.mem_cons_self).1 fun b hb => ?_
        rw [beq_eq_false_iff_ne]
        rintro rfl
        exact hfree hb
      rw [List.flatMap_cons, hword]
      rfl

theorem not_mem_headD_runs (hruns : HasWords (formFeed :: separators) line runs) :
    formFeed ∉ runs.headD [] := by
  cases runs with
  | nil => simp
  | cons run rest =>
      intro hmem
      exact (hruns.of_mem List.mem_cons_self).2 formFeed hmem List.mem_cons_self

/-- Both show the same text exactly if the first word holds no form feed. -/
theorem report_eq_iff (hruns : HasWords (formFeed :: separators) line runs)
    (hfound : HasWords separators line found) (code : CommandCode) :
    report code (runs.headD []) = report code (found.headD []) ↔ formFeed ∉ found.headD [] := by
  constructor
  · intro heq hmem
    have hshown := (Utf8.mem_decodeLossy_iff (by decide) (by decide) _).mpr hmem
    rw [← report_inj.mp heq, Utf8.mem_decodeLossy_iff (by decide) (by decide)] at hshown
    exact not_mem_headD_runs hruns hshown
  · intro hfree
    rw [headD_runs hruns hfound hfree]

/-! ## Failures -/

variable {σ : Type} {ask : σ → Request → Except Error (Option Bytes) × σ} {connection : σ}

/-- A line that is no command, or whose command fails while the connection survives. -/
inductive Fails (ask : σ → Request → Except Error (Option Bytes) × σ) (connection : σ)
    (line : Bytes) : Prop
  | rejected {rejection : Rejection} (hparse : parse line = .error rejection)
  | failed {command : Command} {request : Request} {e : Error} (hparse : parse line = .ok command)
      (hrequest : request? command = some request)
      (hask : (ask connection request).1 = .error e) (hlocal : e.isFatal = false)

theorem Fails.respond (h : Fails ask connection line) (hfound : HasWords separators line found) :
    ∃ code, HasClass (found.headD []) code ∧
      (respond ask connection line).shown = failureReport code line ∧
      (respond ask connection line).continues = true := by
  cases h with
  | @rejected rejection hparse =>
      have hrejected := hparse
      rw [parse_of_hasWords hfound, interpret_eq_error_iff] at hrejected
      obtain ⟨-, hword, hclass⟩ := hrejected
      refine ⟨rejection.code, hword ▸ hclass, ?_, ?_⟩ <;> rw [Console.respond, hparse]
  | @failed command request e hparse hrequest hask hlocal =>
      have hmeans := hparse
      rw [parse_of_hasWords hfound, interpret_eq_ok_iff] at hmeans
      refine ⟨command.code, hmeans.hasClass, ?_, ?_⟩
      all_goals
        rw [Console.respond, hparse]
        simp only [hrequest]
        rcases hasked : ask connection request with ⟨result, after⟩
        rw [hasked] at hask
        obtain rfl : result = .error e := hask
        simp [hlocal]

/-- A failure is reported with the class of the first word of the line, and with the first run of
the line without separators and form feeds, and the dialogue goes on. That run is another text than
the first word exactly if the first word holds a form feed. A rejected line is rejected with the
first word and its class. -/
theorem respond_shows_first_run (h : Fails ask connection line) :
    ∃ found runs code, HasWords separators line found ∧
      HasWords (formFeed :: separators) line runs ∧ HasClass (found.headD []) code ∧
      (respond ask connection line).shown = report code (runs.headD []) ∧
      (respond ask connection line).continues = true ∧
      (report code (runs.headD []) = report code (found.headD []) ↔ formFeed ∉ found.headD []) ∧
      ∀ rejection, parse line = .error rejection →
        rejection.word = found.headD [] ∧ rejection.code = code := by
  obtain ⟨found, hfound⟩ := HasWords.exists_words separators line
  obtain ⟨runs, hruns⟩ := HasWords.exists_words (formFeed :: separators) line
  obtain ⟨code, hclass, hshown, hcontinues⟩ := h.respond hfound
  refine ⟨found, runs, code, hfound, hruns, hclass, ?_, hcontinues,
    report_eq_iff hruns hfound code, ?_⟩
  · rw [hshown, failureReport_eq hruns]
  · intro rejection hparse
    rw [parse_of_hasWords hfound, interpret_eq_error_iff] at hparse
    obtain ⟨-, hword, hrejected⟩ := hparse
    rw [hword] at hrejected
    exact ⟨hword, (hasClass_iff.mp hrejected).symm.trans (hasClass_iff.mp hclass)⟩

/-- A connection over which every request is answered with the status of an invalid argument. -/
def refusing (connection : Unit) (_ : Request) : Except Error (Option Bytes) × Unit :=
  (.error (.status 22), connection)

/-- A request for a value whose first word holds a form feed. -/
def dividedRequest : Bytes :=
  [ascii 'g', formFeed, ascii 'x', ascii ' ', ascii 'k', ascii '\n']

/-- The request is refused, and its report shows the letter in front of the form feed. -/
theorem respond_shows_first_run_of_dividedRequest :
    Fails refusing () dividedRequest ∧
      ∃ runs, HasWords (formFeed :: separators) dividedRequest runs ∧
        (respond refusing () dividedRequest).shown = report .get (runs.headD []) := by
  have hparse : parse dividedRequest = .ok (.get [ascii 'k']) := by decide
  have hfails : Fails refusing () dividedRequest := .failed hparse rfl rfl (by decide)
  obtain ⟨found, runs, code, hfound, hruns, hclass, hshown, -⟩ := respond_shows_first_run hfails
  rw [parse_of_hasWords hfound, interpret_eq_ok_iff] at hparse
  obtain rfl := (hasClass_iff.mp hclass).symm.trans (hasClass_iff.mp (hparse.hasClass))
  exact ⟨hfails, runs, hruns, hshown⟩

/-- A line of one word that holds a form feed. -/
def dividedWord : Bytes := [ascii 'x', formFeed, ascii 'y', ascii '\n']

/-- The whole word is judged and rejected, and the report shows another one. -/
theorem respond_shows_other_word :
    parse dividedWord = .error ⟨.unknown, [ascii 'x', formFeed, ascii 'y']⟩ ∧
      (respond refusing () dividedWord).shown = report .unknown [ascii 'x'] ∧
      (respond refusing () dividedWord).shown ≠
        report .unknown [ascii 'x', formFeed, ascii 'y'] := by
  have hparse : parse dividedWord = .error ⟨.unknown, [ascii 'x', formFeed, ascii 'y']⟩ := by decide
  have hfound : HasWords separators dividedWord [[ascii 'x', formFeed, ascii 'y']] :=
    hasWords_iff.mpr (by decide)
  have hruns : HasWords (formFeed :: separators) dividedWord [[ascii 'x'], [ascii 'y']] :=
    (HasWords.iff_words_eq fun b => by rw [isBlank_iff, List.mem_cons]).mpr (by decide)
  have hshown : (respond refusing () dividedWord).shown = report .unknown [ascii 'x'] := by
    rw [respond, hparse]
    exact failureReport_eq hruns .unknown
  refine ⟨hparse, hshown, ?_⟩
  rw [hshown]
  exact (report_eq_iff hruns hfound .unknown).not.mpr (by decide)

end Console

end KeyValueServer
