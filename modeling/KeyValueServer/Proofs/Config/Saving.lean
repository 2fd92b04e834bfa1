import KeyValueServer.Config.File
import KeyValueServer.Proofs.Text.Utf8
import KeyValueServer.Proofs.Toml.Entries

/-!
# Saved configurations

A configuration can be saved exactly if none of its numbers is past the range of the numbers of a
configuration file, and a file that was saved loads back as the same configuration. A file with some
of the lines loads as the configuration in the settings that it has lines for and as the default in
the others.
-/

namespace KeyValueServer

open Toml

/-! ## Settings -/

namespace Setting

theorem mem_all (s : Setting) : s ∈ all := by
  cases s <;> decide

theorem nodup_all : all.Nodup := by decide

theorem isBare_name (s : Setting) : IsBare s.name.toList := by
  constructor
  · cases s <;> decide
  · cases s <;> exact List.all_eq_true.mp rfl

theorem name_injective : Function.Injective fun s : Setting => s.name.toList :=
  fun s s' h => List.inj_on_of_nodup_map (by decide : (all.map fun s => s.name.toList).Nodup)
    (mem_all s) (mem_all s') h

theorem natural?_of_lt {bits n : Nat} (h : n < Nat.pow 2 bits) :
    natural? bits (.integer n) = some n := by
  have hrange : (0 : Int) ≤ n ∧ (n : Int) < (Nat.pow 2 bits : Nat) :=
    ⟨Int.natCast_nonneg n, by omega⟩
  rw [natural?, number?, if_pos hrange]
  rfl

end Setting

namespace Config

/-- A configuration with the value that another one has for a setting. -/
def copy (base c : Config) : Setting → Config
  | .bindAddress => { base with bindAddress := c.bindAddress }
  | .port => { base with port := c.port }
  | .threads => { base with threads := c.threads }
  | .slotBits => { base with slotBits := c.slotBits }
  | .maxShards => { base with maxShards := c.maxShards }
  | .maxConnections => { base with maxConnections := c.maxConnections }
  | .eventQueueCapacity => { base with eventQueueCapacity := c.eventQueueCapacity }
  | .connectionQueueCapacity =>
      { base with connectionQueueCapacity := c.connectionQueueCapacity }
  | .pollBatch => { base with pollBatch := c.pollBatch }
  | .enqueueRetryMs => { base with enqueueRetryMs := c.enqueueRetryMs }
  | .tcpNodelay => { base with tcpNodelay := c.tcpNodelay }
  | .cpuAffinity => { base with cpuAffinity := c.cpuAffinity }
  | .traceLevel => { base with traceLevel := c.traceLevel }

variable {base c c' : Config}

theorem value_copy (base c : Config) (s s' : Setting) :
    (base.copy c s).value s' = if s' = s then c.value s' else base.value s' := by
  cases s <;> cases s' <;> rfl

/-- A setting takes the value that it has in any configuration. -/
theorem assign?_value (base c : Config) (s : Setting) :
    base.assign? s (c.value s) = some (base.copy c s) := by
  have hword : ∀ word : UInt64,
      (Setting.natural? 64 (.integer word.toNat)).map UInt64.ofNat = some word := by
    intro word
    rw [Setting.natural?_of_lt word.toNat_lt, Option.map_some, UInt64.ofNat_toNat]
  cases s with
  | bindAddress => simp [assign?, value, copy, Setting.text?]
  | port => simp [assign?, value, copy, Setting.natural?_of_lt c.port.toNat_lt]
  | slotBits => simp [assign?, value, copy, Setting.natural?_of_lt c.slotBits.toNat_lt]
  | tcpNodelay => rfl
  | cpuAffinity => rfl
  | traceLevel =>
      have hrange := And.intro c.traceLevel.minValue_le_toInt
        (Int.lt_add_one_of_le c.traceLevel.toInt_le)
      simp only [assign?, value, copy, Setting.number?, if_pos hrange, Option.map_some,
        Int32.ofInt_toInt]
  | _ => simp only [assign?, value, copy, hword]; rfl

/-- The values of its settings make up a configuration. -/
theorem eq_of_value_eq (h : ∀ s, c.value s = c'.value s) : c = c' := by
  have hcopy : ∀ s, c'.copy c s = c' := fun s => by
    have hassigned := assign?_value c' c s
    rw [h s, assign?_value] at hassigned
    have hself : c'.copy c' s = c' := by cases s <;> rfl
    rw [← Option.some.inj hassigned, hself]
  have hall : Setting.all.foldl (fun base s => base.copy c s) c' = c := by
    simp only [Setting.all, List.foldl_cons, List.foldl_nil, copy]
  rw [← hall, List.foldl_fixed' hcopy]

/-! ## Loading -/

/-- The entries for some of the settings. -/
def entries (c : Config) (settings : List Setting) : Entries :=
  settings.map fun s => (s.name.toList, c.value s)

theorem find?_entries (c : Config) (settings : List Setting) (s : Setting) :
    (c.entries settings).find? s.name.toList = if s ∈ settings then some (c.value s) else none := by
  induction settings with
  | nil => rfl
  | cons first settings ih =>
      simp only [entries, Entries.find?, List.map_cons, List.lookup_cons] at ih ⊢
      by_cases hs : s = first
      · subst hs
        simp
      · have hname : (s.name.toList == first.name.toList) = false :=
          beq_eq_false_iff_ne.mpr fun heq => hs (Setting.name_injective heq)
        simp only [hname, ih, List.mem_cons, hs, false_or]

/-- Entries that belong to a configuration set what they stand for and nothing else. -/
theorem exists_foldlM_assign? (c : Config) (settings todo : List Setting) (hnodup : todo.Nodup)
    (base : Config) :
    ∃ loaded, todo.foldlM (fun (base : Config) s =>
        match (c.entries settings).find? s.name.toList with
        | none => some base
        | some node => base.assign? s node) base = some loaded ∧
      ∀ s, loaded.value s = if s ∈ todo ∧ s ∈ settings then c.value s else base.value s := by
  induction todo generalizing base with
  | nil => exact ⟨base, rfl, by simp⟩
  | cons first todo ih =>
      obtain ⟨hfirst, hnodup⟩ := List.nodup_cons.mp hnodup
      rw [List.foldlM_cons, find?_entries]
      by_cases hentry : first ∈ settings
      · obtain ⟨loaded, hloaded, hvalue⟩ := ih hnodup (base.copy c first)
        refine ⟨loaded, ?_, fun s => ?_⟩
        · rw [if_pos hentry]
          simp only [assign?_value]
          exact hloaded
        · rw [hvalue, value_copy]
          by_cases hs : s = first
          · subst hs
            simp [hfirst, hentry]
          · simp [hs]
      · obtain ⟨loaded, hloaded, hvalue⟩ := ih hnodup base
        refine ⟨loaded, ?_, fun s => ?_⟩
        · rw [if_neg hentry]
          exact hloaded
        · rw [hvalue]
          by_cases hs : s = first
          · subst hs
            simp [hentry]
          · simp [hs]

theorem exists_override (c : Config) (settings : List Setting) :
    ∃ loaded, default.override (c.entries settings) = some loaded ∧
      ∀ s, loaded.value s = if s ∈ settings then c.value s else default.value s := by
  obtain ⟨loaded, hloaded, hvalue⟩ :=
    exists_foldlM_assign? c settings Setting.all Setting.nodup_all default
  exact ⟨loaded, hloaded, fun s => by simpa [Setting.mem_all s] using hvalue s⟩

/-! ## Saving -/

/-- What the value of a setting can be. -/
inductive IsPlain : Node → Prop
  | string (text : List Char) : IsPlain (.string text)
  | integer {n : Int} (hlow : Int64.minValue.toInt ≤ n) : IsPlain (.integer n)
  | boolean (value : Bool) : IsPlain (.boolean value)

theorem IsPlain.natural (n : Nat) : IsPlain (.integer n) :=
  .integer (Int.le_trans (by decide) (Int.natCast_nonneg n))

theorem isPlain_value (c : Config) (s : Setting) : IsPlain (c.value s) := by
  cases s with
  | bindAddress => exact .string _
  | tcpNodelay => exact .boolean _
  | cpuAffinity => exact .boolean _
  | traceLevel => exact .integer (Int.le_trans (by decide) c.traceLevel.minValue_le_toInt)
  | _ => exact .natural _

/-- Whether a value is no number past the range of signed 64-bit integers. -/
def InRange (node : Node) : Prop := ∀ n, node = .integer n → n ≤ Int64.maxValue.toInt

variable {node : Node} {text : List Char}

theorem isSome_writeValue_iff (h : IsPlain node) :
    (writeValue node).isSome = true ↔ InRange node := by
  cases h with
  | string text => simp [writeValue, InRange]
  | @integer n _ =>
      have hrange : InRange (.integer n) ↔ n ≤ Int64.maxValue.toInt := by simp [InRange]
      rw [hrange, writeValue]
      split
      next hn => simp [hn]
      next hn => simp [hn]
  | boolean value => simp [writeValue, InRange]

theorem readsAs_of_writeValue (h : IsPlain node) (htext : writeValue node = some text) :
    ReadsAs text node := by
  cases h with
  | string written => exact Option.some.inj htext ▸ readsAs_writeString written
  | integer hlow =>
      rw [writeValue] at htext
      split at htext
      next hhigh => exact Option.some.inj htext ▸ readsAs_toString hlow hhigh
      next => contradiction
  | boolean value => exact Option.some.inj htext ▸ readsAs_boolean value

theorem isSome_writeLine_iff (c : Config) (s : Setting) :
    (c.writeLine s).isSome = true ↔ InRange (c.value s) := by
  rw [writeLine, Option.isSome_map, isSome_writeValue_iff (isPlain_value c s)]

theorem isEntryLine_of_writeLine {c : Config} {s : Setting} (h : c.writeLine s = some text) :
    IsEntryLine text (s.name.toList, c.value s) := by
  obtain ⟨value, hvalue, rfl⟩ := Option.map_eq_some_iff.mp h
  exact .intro (Setting.isBare_name s) (readsAs_of_writeValue (isPlain_value c s) hvalue)

theorem isSome_writeLines_iff (c : Config) (settings : List Setting) :
    (c.writeLines settings).isSome = true ↔ ∀ s ∈ settings, InRange (c.value s) := by
  rw [writeLines, Option.isSome_map]
  induction settings with
  | nil => simp
  | cons s settings ih =>
      rw [List.forall_mem_cons, ← ih, ← isSome_writeLine_iff, List.mapM_cons]
      cases c.writeLine s <;> cases settings.mapM c.writeLine <;> simp

theorem exists_entryLines {c : Config} {settings : List Setting}
    (h : c.writeLines settings = some text) :
    ∃ lines, text = lines.flatten ∧ List.Forall₂ IsEntryLine lines (c.entries settings) := by
  obtain ⟨lines, hlines, rfl⟩ := Option.map_eq_some_iff.mp h
  refine ⟨lines, rfl, ?_⟩
  clear h
  induction settings generalizing lines with
  | nil =>
      obtain rfl := Option.some.inj hlines
      exact .nil
  | cons s settings ih =>
      rw [List.mapM_cons] at hlines
      obtain ⟨line, hline, hlines⟩ := Option.bind_eq_some_iff.mp hlines
      obtain ⟨rest, hrest, hlines⟩ := Option.bind_eq_some_iff.mp hlines
      obtain rfl := Option.some.inj hlines
      exact .cons (isEntryLine_of_writeLine hline) (ih _ hrest)

/-- What was saved of some settings loads with these and with the defaults of the others. -/
theorem exists_load {c : Config} {settings : List Setting} (hnodup : settings.Nodup)
    (h : c.writeLines settings = some text) :
    ∃ loaded, load (Utf8.encode text) = .ok loaded ∧
      ∀ s, loaded.value s = if s ∈ settings then c.value s else default.value s := by
  obtain ⟨lines, rfl, hlines⟩ := exists_entryLines h
  have hnames : ((c.entries settings).map Prod.fst).Nodup := by
    rw [entries, List.map_map]
    exact hnodup.map Setting.name_injective
  obtain ⟨loaded, hloaded, hvalue⟩ := exists_override c settings
  refine ⟨loaded, ?_, hvalue⟩
  rw [load, Utf8.decode?_encode]
  simp only
  rw [ofText, read?_of_entryLines hlines hnames, Option.bind_some, hloaded]

/-- A configuration can be saved exactly if each of its numbers is in the range of signed 64-bit
integers, and what was saved loads as the same configuration. The lines for any of the settings, in
any order, can be written exactly if the numbers among these are in that range, and a file of these
lines loads with their values and the defaults of the other settings. -/
theorem load_saved (c : Config) :
    (c.save.isSome = true ↔ ∀ s n, c.value s = .integer n → n ≤ Int64.maxValue.toInt) ∧
    (∀ text, c.save = some text → load (Utf8.encode text) = .ok c) ∧
    ∀ settings : List Setting, settings.Nodup →
      ((c.writeLines settings).isSome = true ↔
        ∀ s ∈ settings, ∀ n, c.value s = .integer n → n ≤ Int64.maxValue.toInt) ∧
      ∀ text, c.writeLines settings = some text →
        ∃ loaded, load (Utf8.encode text) = .ok loaded ∧
          ∀ s, loaded.value s = if s ∈ settings then c.value s else default.value s := by
  refine ⟨?_, fun text htext => ?_, fun settings hnodup =>
    ⟨isSome_writeLines_iff c settings, fun text htext => exists_load hnodup htext⟩⟩
  · rw [save, isSome_writeLines_iff]
    exact ⟨fun h s => h s (Setting.mem_all s), fun h s _ => h s⟩
  · obtain ⟨loaded, hloaded, hvalue⟩ := exists_load Setting.nodup_all htext
    have heq : loaded = c := eq_of_value_eq fun s => by rw [hvalue, if_pos (Setting.mem_all s)]
    rw [hloaded, heq]

/-- A configuration whose address has quotes of both kinds, a backslash, ends of lines and control
characters, and whose largest number can just be saved. -/
def unwieldy : Config :=
  { default with
    bindAddress := String.ofList ['"', '"', '"', '\'', '\'', '\'', '\\', '\n', '\r', '\t',
      Char.ofNat 0, Char.ofNat 127, 'é']
    threads := 9223372036854775807
    traceLevel := -2147483648 }

/-- It loads as it was saved. The line for its number of threads loads alone too, but not that for
the next number, which can not be written. -/
theorem load_saved_of_unwieldy :
    ∃ text line loaded, unwieldy.save = some text ∧ load (Utf8.encode text) = .ok unwieldy ∧
      unwieldy.writeLines [.threads] = some line ∧ load (Utf8.encode line) = .ok loaded ∧
      loaded.threads = 9223372036854775807 ∧ loaded.port = 22000 ∧
      Config.writeLines { unwieldy with threads := 9223372036854775808 } [.threads] = none := by
  have hrange : ∀ s n, unwieldy.value s = .integer n → n ≤ Int64.maxValue.toInt := by
    intro s n h
    cases s <;> cases h <;> decide
  obtain ⟨hsave, hload, hpart⟩ := load_saved unwieldy
  obtain ⟨text, htext⟩ := Option.isSome_iff_exists.mp (hsave.mpr hrange)
  obtain ⟨hline, hread⟩ := hpart [.threads] (by decide)
  obtain ⟨line, hline⟩ := Option.isSome_iff_exists.mp (hline.mpr fun s _ => hrange s)
  obtain ⟨loaded, hloaded, hvalue⟩ := hread line hline
  obtain ⟨-, -, hlarge⟩ := load_saved { unwieldy with threads := 9223372036854775808 }
  have hthreads := Node.integer.inj (hvalue .threads)
  have hport := Node.integer.inj (hvalue .port)
  refine ⟨text, line, loaded, htext, hload text htext, hline, hloaded,
    UInt64.toNat_inj.mp (Int.ofNat.inj hthreads), UInt16.toNat_inj.mp (Int.ofNat.inj hport), ?_⟩
  refine Option.not_isSome_iff_eq_none.mp fun hsome => ?_
  have hle := (hlarge [.threads] (by decide)).1.mp hsome .threads List.mem_cons_self _ rfl
  exact absurd hle (by decide)

end Config

end KeyValueServer
