-- SUMMARY: The printer of result tables, and the room it leaves in the buffer of the client.
import Mathlib.Data.Nat.Digits.Defs
import Rmdb.Common.DateTime

/-!
# The record printer

`record_printer.h`: tables are written piece by piece into `data_send`, each piece only where the
last line still fits behind it. A `memcpy` past the end of the buffer is `none`.
-/

namespace Rmdb

/-- `BUFFER_LENGTH`, the size of `data_send`. -/
def bufferLength : Nat := 8192

/-- `RECORD_COUNT_LENGTH`. -/
def recordCountLength : Nat := 40

/-- The members of `Context` that the printer is about. -/
structure PrintContext where
  dataSend : List UInt8
  offset : Nat
  ellipsis : Bool
  size : dataSend.length = bufferLength

/-- One of the places that print a piece of text, and whether its `else` sets `ellipsis_`. -/
structure PrintSite where
  text : List UInt8
  setsEllipsis : Bool

namespace PrintContext

variable (c : PrintContext)

/-- `memcpy` to the end of the text, and the step forward. -/
def append (str : List UInt8) : Option PrintContext :=
  if h : c.offset + str.length ≤ bufferLength then
    some { c with
      dataSend := c.dataSend.take c.offset ++ str ++ c.dataSend.drop (c.offset + str.length)
      offset := c.offset + str.length
      size := by
        have := c.size
        simp only [List.length_append, List.length_take, List.length_drop]
        omega }
  else none

def print (site : PrintSite) : Option PrintContext :=
  if c.ellipsis = false ∧ c.offset + recordCountLength + site.text.length < bufferLength then
    c.append site.text
  else some { c with ellipsis := c.ellipsis || site.setsEllipsis }

end PrintContext

namespace RecordPrinter

def separatorSites (numCols : Nat) : List PrintSite :=
  List.replicate numCols ⟨ascii "+------------------", true⟩ ++ [⟨ascii "+\n", true⟩]

/-- A column with `setw(COL_WIDTH)`. -/
def cellText (col : List UInt8) : List UInt8 :=
  let col := if col.length > 16 then col.take 13 ++ ascii "..." else col
  ascii "| " ++ (List.replicate (16 - col.length) 32 ++ col) ++ ascii " "

/-- The piece behind the last column has no `else`. -/
def recordSites (recStr : List (List UInt8)) : List PrintSite :=
  recStr.map (fun col => ⟨cellText col, true⟩) ++ [⟨ascii "|\n", false⟩]

def printSeparator (numCols : Nat) (c : PrintContext) : Option PrintContext :=
  (separatorSites numCols).foldlM PrintContext.print c

def printRecord (recStr : List (List UInt8)) (c : PrintContext) : Option PrintContext :=
  (recordSites recStr).foldlM PrintContext.print c

def countText (ellipsis : Bool) (numRec : Nat) : List UInt8 :=
  (if ellipsis then ascii "... ...\n" else []) ++ ascii "Total record(s): " ++
    ascii (Nat.repr numRec) ++ ascii "\n"

def printRecordCount (numRec : Nat) (c : PrintContext) : Option PrintContext :=
  c.append (countText c.ellipsis numRec)

end RecordPrinter

-- ---------------------------------------------------------------------------
-- Runs
-- ---------------------------------------------------------------------------

inductive PrintCall where
  | separator (numCols : Nat)
  | record (recStr : List (List UInt8))

namespace PrintCall

def sites : PrintCall → List PrintSite
  | separator numCols => RecordPrinter.separatorSites numCols
  | record recStr => RecordPrinter.recordSites recStr

def run (c : PrintContext) : PrintCall → Option PrintContext
  | separator numCols => RecordPrinter.printSeparator numCols c
  | record recStr => RecordPrinter.printRecord recStr c

/-- Calls one after the other are their pieces one after the other. -/
theorem foldlM_run (calls : List PrintCall) (c : PrintContext) :
    calls.foldlM run c = (calls.flatMap sites).foldlM PrintContext.print c := by
  induction calls generalizing c with
  | nil => rfl
  | cons call calls ih =>
    have hcall : run c call = call.sites.foldlM PrintContext.print c := by
      cases call <;> rfl
    rw [List.foldlM_cons, List.flatMap_cons, List.foldlM_append, hcall]
    congr 1
    funext c'
    exact ih c'

end PrintCall

-- ---------------------------------------------------------------------------
-- Room for the last line
-- ---------------------------------------------------------------------------

namespace PrintContext

variable {c c' : PrintContext} {site : PrintSite} {sites : List PrintSite}

/-- The last line still fits. -/
def Fits (c : PrintContext) : Prop := c.offset + recordCountLength < bufferLength

theorem append_eq {str : List UInt8} (h : c.offset + str.length ≤ bufferLength) :
    ∃ c', c.append str = some c' ∧ c'.offset = c.offset + str.length ∧ c'.ellipsis = c.ellipsis ∧
      c'.dataSend.take c'.offset = c.dataSend.take c.offset ++ str := by
  unfold append
  rw [dif_pos h]
  refine ⟨_, rfl, rfl, rfl, ?_⟩
  have hsize := c.size
  have htake : (c.dataSend.take c.offset ++ str).length = c.offset + str.length := by
    rw [List.length_append, List.length_take]
    omega
  exact List.take_left' htake

theorem Fits.print (h : c.Fits) (site : PrintSite) : ∃ c', c.print site = some c' ∧ c'.Fits := by
  unfold Fits at h
  unfold PrintContext.print
  split
  · next hroom =>
    have hle : c.offset + site.text.length ≤ bufferLength := by omega
    obtain ⟨c', hc', hoffset, -⟩ := append_eq hle
    refine ⟨c', hc', ?_⟩
    unfold Fits
    omega
  · exact ⟨_, rfl, h⟩

theorem Fits.foldlM (h : c.Fits) (sites : List PrintSite) :
    ∃ c', sites.foldlM PrintContext.print c = some c' ∧ c'.Fits := by
  induction sites generalizing c with
  | nil => exact ⟨c, rfl, h⟩
  | cons site sites ih =>
    obtain ⟨c₁, hprint, hfits⟩ := h.print site
    obtain ⟨c', hrun, hfits'⟩ := ih hfits
    refine ⟨c', ?_, hfits'⟩
    rw [List.foldlM_cons, hprint]
    exact hrun

/-- With `ellipsis_` set, nothing more is printed. -/
theorem foldlM_of_ellipsis (h : c.ellipsis = true) (sites : List PrintSite) :
    sites.foldlM print c = some c := by
  induction sites with
  | nil => rfl
  | cons site sites ih =>
    have hprint : c.print site = some c := by
      unfold print
      rw [if_neg (by simp [h])]
      cases c
      simp_all
    rw [List.foldlM_cons, hprint]
    exact ih

/-- A place that sets `ellipsis_` has printed its text otherwise. -/
theorem print_cases (hsets : site.setsEllipsis = true) (hprint : c.print site = some c') :
    c'.ellipsis = true ∨ c'.offset = c.offset + site.text.length := by
  unfold print at hprint
  split at hprint
  · next hroom =>
    have hle : c.offset + site.text.length ≤ bufferLength := by omega
    obtain ⟨c₁, hc₁, hoffset, -⟩ := append_eq hle
    rw [hc₁] at hprint
    cases hprint
    exact .inr hoffset
  · cases hprint
    rw [hsets]
    exact .inl (Bool.or_true _)

theorem foldlM_cases (hsets : ∀ site ∈ sites, site.setsEllipsis = true) (hrun : sites.foldlM print c = some c') :
    c'.ellipsis = true ∨ c'.offset = c.offset + (sites.map (·.text.length)).sum := by
  induction sites generalizing c with
  | nil =>
    cases hrun
    exact .inr rfl
  | cons site sites ih =>
    obtain ⟨hsite, hsites⟩ := List.forall_mem_cons.mp hsets
    rw [List.foldlM_cons, Option.bind_eq_bind, Option.bind_eq_some_iff] at hrun
    obtain ⟨c₁, hprint, hrun⟩ := hrun
    rw [List.map_cons, List.sum_cons, ← Nat.add_assoc]
    rcases print_cases hsite hprint with hset | hoffset
    · rw [foldlM_of_ellipsis hset] at hrun
      cases hrun
      exact .inl hset
    · rw [← hoffset]
      exact ih hsites hrun

end PrintContext

namespace RecordPrinter

theorem ascii_length (s : String) : (ascii s).length = s.length := by
  rw [ascii, List.length_map, String.length_toList]

theorem countText_length {numRec : Nat} (h : numRec < 10 ^ 14) (ellipsis : Bool) :
    (countText ellipsis numRec).length ≤ recordCountLength := by
  have hdigits := Nat.repr_length numRec 14 (by decide) h
  have hlast : (ascii "Total record(s): ").length = 17 := rfl
  have hend : (ascii "\n").length = 1 := rfl
  have hdots : (if ellipsis then ascii "... ...\n" else []).length ≤ 8 := by
    cases ellipsis <;> decide
  unfold countText recordCountLength
  simp only [List.length_append, ascii_length] at *
  omega

theorem separatorSites_sets {numCols : Nat} : ∀ site ∈ separatorSites numCols, site.setsEllipsis = true := by
  intro site hsite
  rcases List.mem_append.mp hsite with hcol | hend
  · rw [(List.mem_replicate.mp hcol).2]
  · rw [List.mem_singleton.mp hend]

end RecordPrinter

/-- Whatever tables are printed into the buffer, and wherever one looks at it, the text that the
client is sent lies in it, with the last line as well; and once `ellipsis_` is set no further
piece is printed. -/
theorem result_buffer_bound {c₀ : PrintContext} (h₀ : c₀.offset = 0) (calls : List PrintCall)
    {numRec : Nat} (hnum : numRec < 10 ^ 14) :
    ∃ c c', calls.foldlM PrintCall.run c₀ = some c ∧ RecordPrinter.printRecordCount numRec c = some c' ∧
      c'.offset + 1 ≤ bufferLength ∧
      ∀ front back, calls.flatMap PrintCall.sites = front ++ back →
        ∃ c₁, front.foldlM PrintContext.print c₀ = some c₁ ∧ c₁.offset + 1 ≤ bufferLength ∧
          (c₁.ellipsis = true → back.foldlM PrintContext.print c₁ = some c₁) := by
  have hfits₀ : c₀.Fits := by
    unfold PrintContext.Fits
    rw [h₀]
    decide
  obtain ⟨c, hrun, hfits⟩ := hfits₀.foldlM (calls.flatMap PrintCall.sites)
  have hcount := RecordPrinter.countText_length hnum c.ellipsis
  unfold PrintContext.Fits at hfits
  have hroom : c.offset + (RecordPrinter.countText c.ellipsis numRec).length ≤ bufferLength := by omega
  obtain ⟨c', hc', hoffset, -⟩ := PrintContext.append_eq hroom
  refine ⟨c, c', ?_, hc', by omega, fun front back hsplit => ?_⟩
  · rw [PrintCall.foldlM_run, hrun]
  · obtain ⟨c₁, hfront, hfits₁⟩ := hfits₀.foldlM front
    refine ⟨c₁, hfront, ?_, fun hset => PrintContext.foldlM_of_ellipsis hset back⟩
    unfold PrintContext.Fits at hfits₁
    omega

/-- The first separator of a table of 500 columns is too long already: `ellipsis_` is set, nothing is printed of the row,
and the last line fits. -/
theorem result_buffer_bound_ellipsis : ∃ (c₀ c c' : PrintContext), c.ellipsis = true ∧
    (RecordPrinter.separatorSites 500).foldlM PrintContext.print c₀ = some c ∧
    [PrintCall.separator 500, .record (List.replicate 500 (ascii "a"))].foldlM PrintCall.run c₀ = some c ∧
    RecordPrinter.printRecordCount 1 c = some c' ∧ c'.offset + 1 ≤ bufferLength := by
  obtain ⟨c, c', hrun, hcount, hbound, hsplit⟩ :=
    @result_buffer_bound ⟨List.replicate bufferLength 0, 0, false, List.length_replicate⟩ rfl
      [.separator 500, .record (List.replicate 500 (ascii "a"))] 1 (by decide)
  have hsites : [PrintCall.separator 500, .record (List.replicate 500 (ascii "a"))].flatMap PrintCall.sites =
      RecordPrinter.separatorSites 500 ++ RecordPrinter.recordSites (List.replicate 500 (ascii "a")) :=
    congrArg (RecordPrinter.separatorSites 500 ++ ·) (List.append_nil _)
  obtain ⟨c₁, hfront, hoffset, hback⟩ := hsplit (RecordPrinter.separatorSites 500)
    (RecordPrinter.recordSites (List.replicate 500 (ascii "a"))) hsites
  have hset : c₁.ellipsis = true := by
    refine (PrintContext.foldlM_cases RecordPrinter.separatorSites_sets hfront).resolve_right fun hall => ?_
    have hsum : ((RecordPrinter.separatorSites 500).map (·.text.length)).sum = 9502 := by decide +kernel
    rw [hall, hsum] at hoffset
    exact absurd hoffset (by decide)
  have hsame : c₁ = c := by
    rw [PrintCall.foldlM_run, hsites, List.foldlM_append, hfront] at hrun
    exact Option.some.inj ((hback hset).symm.trans hrun)
  rw [hsame] at hset hfront
  exact ⟨_, c, c', hset, hfront, hrun, hcount, hbound⟩

-- ---------------------------------------------------------------------------
-- What the client reads
-- ---------------------------------------------------------------------------

namespace PrintContext

variable {c c' c₀ : PrintContext} {site : PrintSite} {sites : List PrintSite} {k : Nat}

/-- The text so far. -/
def text (c : PrintContext) : List UInt8 := c.dataSend.take c.offset

/-- The first `k` pieces are there, and if these are not all, no piece is printed any more. -/
structure Printed (sites : List PrintSite) (k : Nat) (c : PrintContext) : Prop where
  text : c.text = (sites.take k).flatMap PrintSite.text
  stopped : k = sites.length ∨ k < sites.length ∧
    (c.ellipsis = true ∨ bufferLength ≤ c.offset + recordCountLength + 2)

/-- A piece whose place does not set `ellipsis_` is shorter than no other. -/
def Ordinary (site : PrintSite) : Prop :=
  2 ≤ site.text.length ∧ (site.setsEllipsis = true ∨ site.text.length = 2)

theorem Printed.print (h : Printed sites k c) (hsite : Ordinary site) (hprint : c.print site = some c') :
    ∃ k', Printed (sites ++ [site]) k' c' := by
  obtain ⟨hlen, hsets⟩ := hsite
  have hstays : (sites ++ [site]).take k = sites.take k := by
    apply List.take_append_of_le_length
    rcases h.stopped with hall | ⟨hlt, -⟩ <;> omega
  have hnext : (sites ++ [site]).length = sites.length + 1 := List.length_append
  unfold PrintContext.print at hprint
  split at hprint
  · next hroom =>
    -- There is room, so all pieces so far have been printed.
    have hall : k = sites.length := by
      rcases h.stopped with hall | ⟨-, hset | hfull⟩
      · exact hall
      · rw [hset] at hroom
        exact absurd hroom.1 (by decide)
      · omega
    have hle : c.offset + site.text.length ≤ bufferLength := by omega
    obtain ⟨c₁, hc₁, -, -, htext⟩ := append_eq hle
    rw [hc₁] at hprint
    cases hprint
    refine ⟨sites.length + 1, ?_, .inl hnext.symm⟩
    have hold := h.text
    unfold PrintContext.text at hold ⊢
    rw [htext, hold, hall, List.take_length, ← hnext, List.take_length, List.flatMap_append,
      List.flatMap_singleton]
  · next hroom =>
    cases hprint
    refine ⟨k, ?_, .inr ⟨?_, ?_⟩⟩
    · rw [hstays]
      exact h.text
    · rw [hnext]
      rcases h.stopped with hall | ⟨hlt, -⟩ <;> omega
    · dsimp only
      cases hset : c.ellipsis with
      | true => exact .inl rfl
      | false =>
        rcases hsets with htrue | htwo
        · exact .inl htrue
        · right
          rw [not_and, htwo] at hroom
          exact not_lt.mp (hroom hset)

theorem Printed.foldlM (h₀ : c₀.offset = 0) (hsites : ∀ site ∈ sites, Ordinary site)
    (hrun : sites.foldlM PrintContext.print c₀ = some c) : ∃ k, Printed sites k c := by
  induction sites using List.reverseRecOn generalizing c with
  | nil =>
    cases hrun
    refine ⟨0, ?_, .inl rfl⟩
    unfold PrintContext.text
    rw [h₀]
    rfl
  | append_singleton sites site ih =>
    rw [List.foldlM_append, Option.bind_eq_bind, Option.bind_eq_some_iff] at hrun
    obtain ⟨c₁, hfront, hlast⟩ := hrun
    obtain ⟨k, hprinted⟩ := ih (fun s hs => hsites s (List.mem_append_left _ hs)) hfront
    rw [List.foldlM_cons, Option.bind_eq_bind, Option.bind_eq_some_iff] at hlast
    obtain ⟨c₂, hlast, hsame⟩ := hlast
    cases hsame
    exact hprinted.print (hsites site (by simp)) hlast

end PrintContext

theorem RecordPrinter.cellText_length (col : List UInt8) : (cellText col).length = 19 := by
  have hbar : (ascii "| ").length = 2 := rfl
  have hdots : (ascii "...").length = 3 := rfl
  have hblank : (ascii " ").length = 1 := rfl
  unfold cellText
  dsimp only
  split
  · simp only [List.length_append, List.length_replicate, List.length_take]
    omega
  · simp only [List.length_append, List.length_replicate]
    omega

theorem PrintCall.sites_ordinary (call : PrintCall) : ∀ site ∈ call.sites, PrintContext.Ordinary site := by
  intro site hsite
  cases call with
  | separator numCols =>
    rcases List.mem_append.mp hsite with hcol | hend
    · rw [(List.mem_replicate.mp hcol).2]
      exact ⟨by decide, .inl rfl⟩
    · rw [List.mem_singleton.mp hend]
      exact ⟨by decide, .inl rfl⟩
  | record recStr =>
    rcases List.mem_append.mp hsite with hcol | hend
    · obtain ⟨col, -, rfl⟩ := List.mem_map.mp hcol
      refine ⟨?_, .inl rfl⟩
      rw [RecordPrinter.cellText_length]
      decide
    · rw [List.mem_singleton.mp hend]
      exact ⟨by decide, .inr rfl⟩

/-- The client reads the tables as they are up to some piece, and then the last line. -/
theorem printed_prefix {c₀ c c' : PrintContext} (h₀ : c₀.offset = 0) {calls : List PrintCall} {numRec : Nat}
    (hrun : calls.foldlM PrintCall.run c₀ = some c) (hcount : RecordPrinter.printRecordCount numRec c = some c') :
    ∃ k, c'.text = ((calls.flatMap PrintCall.sites).take k).flatMap PrintSite.text ++
      RecordPrinter.countText c.ellipsis numRec := by
  rw [PrintCall.foldlM_run] at hrun
  have hsites : ∀ site ∈ calls.flatMap PrintCall.sites, PrintContext.Ordinary site := by
    intro site hsite
    obtain ⟨call, -, hmem⟩ := List.mem_flatMap.mp hsite
    exact call.sites_ordinary site hmem
  obtain ⟨k, hprinted⟩ := PrintContext.Printed.foldlM h₀ hsites hrun
  unfold RecordPrinter.printRecordCount at hcount
  have hroom : c.offset + (RecordPrinter.countText c.ellipsis numRec).length ≤ bufferLength := by
    by_contra hno
    unfold PrintContext.append at hcount
    rw [dif_neg hno] at hcount
    cases hcount
  obtain ⟨c₁, hc₁, -, -, htext⟩ := PrintContext.append_eq hroom
  rw [hc₁] at hcount
  cases hcount
  refine ⟨k, ?_⟩
  rw [← hprinted.text]
  exact htext

end Rmdb
