import LoxScript.Command.Options

/-!
What the config file and the arguments ask for together.

Either it is refused, or the command breaks down on it, or there are options to go on with; these
are said in terms of the file's entries and of the depth that is in effect.
-/

namespace LoxScript
namespace Command

/-! ### The config file -/

section
variable (content : Except ReadError ByteArray)

/-- A file is there, and this is its text. -/
def IsText (text : String) : Prop :=
  ∃ bytes, content = .ok bytes ∧ String.fromUTF8? bytes = some text

/-- A file is there, and it is no text. -/
def IsNoText : Prop := ∃ bytes, content = .ok bytes ∧ String.fromUTF8? bytes = none

/-- The entries of the config file, of which there are none if there is no file. -/
inductive Configured : List (String × Toml.Value) → Prop
  | absent {e : ReadError} : content = .error e → e.meansAbsent = true → Configured []
  | file {text : String} {entries : List (String × Toml.Value)} : IsText content text →
      Toml.parse text = .ok entries → Configured entries

end

section
variable (entries : List (String × Toml.Value))

/-- What the config file gives as the depth. -/
def depthEntry? : Option Toml.Value :=
  match entries.lookup "interpreter" with
  | some (.table inner) => inner.lookup "max_call_depth"
  | _ => none

/-- It gives something that is no integer. -/
def HasWrongDepth : Prop := ∃ v, depthEntry? entries = some v ∧ ∀ n, v ≠ .integer n

/-- The depth that is in effect.  There is none if the option for it is given two dashes. -/
def effectiveDepth? (a : Arguments) : Option Int :=
  match a.maxCallDepth, depthEntry? entries with
  | some (.number n), _ => some n
  | some .dashes, _ => none
  | none, some (.integer n) => some n
  | none, _ => some Options.defaultDepth

end

variable (a : Arguments) (content : Except ReadError ByteArray)

/-- What the config file and the arguments ask for is wrong. -/
inductive Refused : Prop
  | malformed {text : String} : IsText content text → Toml.parse text = .error .malformed → Refused
  | wrongDepth {entries : List (String × Toml.Value)} : Configured content entries →
      HasWrongDepth entries → Refused
  | smallDepth {entries : List (String × Toml.Value)} {n : Int} : Configured content entries →
      ¬ HasWrongDepth entries → effectiveDepth? entries a = some n → n < 1 → Refused

/-- The command breaks down before it looks for a script. -/
inductive Breaks : Breakdown → Prop
  | undecodable : IsNoText content → Breaks .undecodable
  | outOfReach {e : ReadError} : content = .error e → e.meansAbsent = false →
      Breaks (.configOutOfReach e)
  | integerTooLong {text : String} : IsText content text →
      Toml.parse text = .error .integerTooLong → Breaks .configIntegerTooLong
  | depthNotGiven {entries : List (String × Toml.Value)} : Configured content entries →
      ¬ HasWrongDepth entries → effectiveDepth? entries a = none → Breaks .depthNotGiven

/-- The options that the command goes on with. -/
inductive Accepted : Options → Prop
  | intro {entries : List (String × Toml.Value)} {n : Int} : Configured content entries →
      ¬ HasWrongDepth entries → effectiveDepth? entries a = some n → 1 ≤ n →
      Accepted { script := a.scriptPath?, maxCallDepth := n.toNat,
                 debug := Options.configDebug entries || a.debug }

variable {a content}

theorem Configured.configEntries_eq {entries : List (String × Toml.Value)}
    (h : Configured content entries) (path : Path) :
    Options.configEntries path content = .ok entries := by
  cases h with
  | absent he habsent =>
    rw [he, Options.configEntries, if_pos habsent]
  | file ht hparse =>
    obtain ⟨bytes, rfl, htext⟩ := ht
    simp only [Options.configEntries, htext, hparse]

theorem configDepth_eq (entries : List (String × Toml.Value)) :
    Options.configDepth entries = match depthEntry? entries with
      | some (.integer n) => .ok (some n)
      | some _ => .error .depthNotInteger
      | none => .ok none := by
  unfold Options.configDepth depthEntry?
  cases entries.lookup "interpreter" with
  | none => rfl
  | some v => cases v <;> rfl

theorem configDepth_of_wrong {entries : List (String × Toml.Value)} (h : HasWrongDepth entries) :
    Options.configDepth entries = .error .depthNotInteger := by
  obtain ⟨v, hv, hne⟩ := h
  rw [configDepth_eq, hv]
  cases v with
  | integer n => exact absurd rfl (hne n)
  | _ => rfl

/-- The argument and the config file together give the depth that is in effect. -/
theorem depth_eq {entries : List (String × Toml.Value)} (h : ¬ HasWrongDepth entries)
    (a : Arguments) : ∃ configured, Options.configDepth entries = .ok configured ∧
      Options.depth a.maxCallDepth configured = match effectiveDepth? entries a with
        | some n => .ok n
        | none => .error (.broken .depthNotGiven) := by
  rw [configDepth_eq]
  unfold effectiveDepth?
  cases hv : depthEntry? entries with
  | none =>
    refine ⟨none, rfl, ?_⟩
    rcases a.maxCallDepth with _ | (n | _) <;> rfl
  | some v =>
    cases v with
    | integer n =>
      refine ⟨some n, rfl, ?_⟩
      rcases a.maxCallDepth with _ | (n | _) <;> rfl
    | _ => exact absurd ⟨_, hv, nofun⟩ h

/-! ### The options -/

theorem ofArguments_of_refused (h : Refused a content) :
    ∃ e, Options.ofArguments a content = .error (.config e) := by
  unfold Options.ofArguments
  cases h with
  | malformed ht hparse =>
    obtain ⟨bytes, rfl, htext⟩ := ht
    refine ⟨.invalidFile a.configPath, ?_⟩
    simp only [Options.configEntries, htext, hparse]
    rfl
  | wrongDepth hentries hwrong =>
    refine ⟨.depthNotInteger, ?_⟩
    rw [hentries.configEntries_eq]
    show (Options.configDepth _).mapError _ >>= _ = _
    rw [configDepth_of_wrong hwrong]
    rfl
  | smallDepth hentries hright hdepth hlt =>
    refine ⟨.depthTooSmall, ?_⟩
    obtain ⟨configured, hconfigured, heffective⟩ := depth_eq hright a
    rw [hentries.configEntries_eq]
    show (Options.configDepth _).mapError _ >>= _ = _
    rw [hconfigured]
    show Options.depth _ _ >>= _ = _
    rw [heffective, hdepth]
    exact if_pos hlt

theorem ofArguments_of_breaks {b : Breakdown} (h : Breaks a content b) :
    Options.ofArguments a content = .error (.broken b) := by
  unfold Options.ofArguments
  cases h with
  | undecodable ht =>
    obtain ⟨bytes, rfl, htext⟩ := ht
    simp only [Options.configEntries, htext]
    rfl
  | outOfReach he hreach =>
    simp only [he, Options.configEntries, hreach]
    rfl
  | integerTooLong ht hparse =>
    obtain ⟨bytes, rfl, htext⟩ := ht
    simp only [Options.configEntries, htext, hparse]
    rfl
  | depthNotGiven hentries hright hdepth =>
    obtain ⟨configured, hconfigured, heffective⟩ := depth_eq hright a
    rw [hentries.configEntries_eq]
    show (Options.configDepth _).mapError _ >>= _ = _
    rw [hconfigured]
    show Options.depth _ _ >>= _ = _
    rw [heffective, hdepth]
    rfl

theorem ofArguments_of_accepted {o : Options} (h : Accepted a content o) :
    Options.ofArguments a content = .ok o := by
  unfold Options.ofArguments
  obtain ⟨hentries, hright, hdepth, hle⟩ := h
  obtain ⟨configured, hconfigured, heffective⟩ := depth_eq hright a
  rw [hentries.configEntries_eq]
  show (Options.configDepth _).mapError _ >>= _ = _
  rw [hconfigured]
  show Options.depth _ _ >>= _ = _
  rw [heffective, hdepth]
  exact if_neg (Int.not_lt.2 hle)

/-- There are no other cases. -/
theorem configuration_cases (a : Arguments) (content : Except ReadError ByteArray) :
    Refused a content ∨ (∃ b, Breaks a content b) ∨ ∃ o, Accepted a content o := by
  have hconfigured : ∀ entries, Configured content entries →
      Refused a content ∨ (∃ b, Breaks a content b) ∨ ∃ o, Accepted a content o := by
    intro entries h
    by_cases hwrong : HasWrongDepth entries
    · exact .inl (.wrongDepth h hwrong)
    · cases hdepth : effectiveDepth? entries a with
      | none => exact .inr (.inl ⟨_, .depthNotGiven h hwrong hdepth⟩)
      | some n =>
        by_cases hlt : n < 1
        · exact .inl (.smallDepth h hwrong hdepth hlt)
        · exact .inr (.inr ⟨_, .intro h hwrong hdepth (Int.not_lt.1 hlt)⟩)
  cases hcontent : content with
  | error e =>
    rw [← hcontent]
    cases habsent : e.meansAbsent with
    | true => exact hconfigured [] (.absent hcontent habsent)
    | false => exact .inr (.inl ⟨_, .outOfReach hcontent habsent⟩)
  | ok bytes =>
    rw [← hcontent]
    cases htext : String.fromUTF8? bytes with
    | none => exact .inr (.inl ⟨_, .undecodable ⟨bytes, hcontent, htext⟩⟩)
    | some text =>
      have ht : IsText content text := ⟨bytes, hcontent, htext⟩
      cases hparse : Toml.parse text with
      | ok entries => exact hconfigured entries (.file ht hparse)
      | error e =>
        cases e with
        | malformed => exact .inl (.malformed ht hparse)
        | integerTooLong => exact .inr (.inl ⟨_, .integerTooLong ht hparse⟩)

end Command
end LoxScript
