import SimplePiOS.Libpi.MiniUart
import SimplePiOS.Shell.Session

/-! A session of the shell over the serial line, down to the registers of the mini UART. -/
namespace SimplePiOS.Shell
open Lib Lib.Fifo Libpi Libpi.Hw
open Lib.Matcher (feed restart)

section Serial
variable {Dirent : Type} {unix : List Byte → Option (List Byte)} {ending : Ending} {world : ℕ → World Dirent}
  {typed rest rest' : List Typed} {argv : List (List Byte)} {n : ℕ} {sent got booted : List Byte} {s : Pins}
  {board : Chip} {w : Wired Place (Loop × ℕ)}

/-- The kernel behind a mini UART that has been initialised, and the shell at the other end of its lines. -/
abbrev LineReach (unix : List Byte → Option (List Byte)) (ending : Ending) (world : ℕ → World Dirent) :
    Wired Place (Loop × ℕ) → Wired Place (Loop × ℕ) → Prop :=
  Wired.Reach (nextShell unix ending) (nextKernel world) fun _ => id

def lineStart (typed : List Typed) (booted : List Byte) (board : Chip) : Wired Place (Loop × ℕ) :=
  .start (shell typed) (notmain booted) board

/-- The shell has left, the kernel has stopped between two polls, and nothing is in a FIFO or on a line. -/
structure LineDown (n : ℕ) (argv : List (List Byte)) (rest : List Typed) (w : Wired Place (Loop × ℕ)) : Prop where
  host : w.host = .done (.command argv .exited, rest)
  pi : w.pi = .done (.done (.dead, n + 1))
  toPi : w.toPi = []
  toHost : w.toHost = []
  rx : w.board.uart.rx = []
  tx : w.board.uart.tx = []
  ready : w.board.uart.Ready

theorem lineDown_of_channels {c : Config Byte Place (Loop × ℕ)} (h : Channels w c) (hdown : ShutDown n argv rest c) :
    LineDown n argv rest w := by
  have hpi := h.pi
  have hab := h.ab
  have hba := h.ba
  rw [hdown.pi] at hpi
  rw [hdown.toPi] at hab
  rw [hdown.toHost] at hba
  obtain ⟨hrx, htoPi⟩ := List.append_eq_nil_iff.mp hab.symm
  obtain ⟨htoHost, htx⟩ := List.append_eq_nil_iff.mp hba.symm
  refine ⟨h.host.symm.trans hdown.host, ?_, htoPi, htoHost, hrx, htx, h.ready⟩
  generalize w.pi = io at hpi
  cases hpi with
  | between => rfl

/-- Wherever the polling, the shell and the line have come to, if the FIFO has not overrun the session can be
brought to its end, with nothing lost on the way. -/
theorem line_shuts_down (hinit : Initialised s board) (hboot : feed (restart readyMsg) 0 (booted ++ readyMsg) = .seen [])
    (h : Worked unix world 0 typed n sent got) (hdown : Shutdown ending rest argv rest')
    (hreach : LineReach unix ending world (lineStart (typed ++ rest) booted board) w) (hlost : w.lost = 0) :
    ∃ w', LineReach unix ending world w w' ∧ w'.lost = 0 ∧ LineDown n argv rest' w' := by
  obtain ⟨c, hend, hdone⟩ := session_ends hboot h hdown
  obtain ⟨w', hreach', hlost', hchan⟩ :=
    on_inevitable (channels_start (shell (typed ++ rest)) (notmain booted) hinit) hend hreach hlost
  exact ⟨w', hreach', hlost'.trans hlost, lineDown_of_channels hchan hdone⟩

theorem line_shuts_down_four : ∃ board, ∃ w',
    LineReach allSmall .eof smallWorld
      (lineStart ([echoLine, blankLine, catLine, progLine] ++ [rebootLine, catLine]) [] board) w' ∧
    w'.lost = 0 ∧ LineDown 3 [lit "reboot"] [catLine] w' := by
  obtain ⟨board, hinit⟩ := reset_initialised
  obtain ⟨sent, got, hworked⟩ := worked_four
  have hwords : wordsOf rebootLine.text.dropLast = [lit "reboot"] := by decide
  have hboot : feed (restart readyMsg) 0 ([] ++ readyMsg) = .seen [] := by decide
  exact ⟨board, line_shuts_down hinit hboot hworked (.command (by decide) hwords) .refl rfl⟩

end Serial
end SimplePiOS.Shell
