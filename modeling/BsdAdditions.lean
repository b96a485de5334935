import BsdAdditions.Common.Run
import BsdAdditions.Common.Prog
import BsdAdditions.Common.Returns
import BsdAdditions.Common.Relates
import BsdAdditions.Common.Overwrite
import BsdAdditions.Common.Lines
import BsdAdditions.Common.PrimeTable
import BsdAdditions.Timeout.Model
import BsdAdditions.Timeout.KillsCommand
import BsdAdditions.Timeout.WakeUp
import BsdAdditions.Timeout.KillAfter
import BsdAdditions.Factor.Table
import BsdAdditions.Factor.Model
import BsdAdditions.Factor.Correct
import BsdAdditions.Ee.State
import BsdAdditions.Ee.Move
import BsdAdditions.Ee.Edit
import BsdAdditions.Ee.Format
import BsdAdditions.Ee.File
import BsdAdditions.Ee.Invariant
import BsdAdditions.Ee.MoveSound
import BsdAdditions.Ee.Screen
import BsdAdditions.Ee.Zipper
import BsdAdditions.Ee.EditSound
import BsdAdditions.Ee.DeleteSound
import BsdAdditions.Ee.Steps
import BsdAdditions.Ee.Wide
import BsdAdditions.Ee.Motion
import BsdAdditions.Ee.TypingSound
import BsdAdditions.Ee.Commands
import BsdAdditions.Ee.ReadSound
import BsdAdditions.Ee.LoadSave
import BsdAdditions.Ee.Changes
import BsdAdditions.Ee.Wanders
import BsdAdditions.Ee.Tracks
import BsdAdditions.Ee.LineCount
import BsdAdditions.Ee.Goto
import BsdAdditions.Ee.Config
import BsdAdditions.Ee.ConfigRoundTrip
import BsdAdditions.Indent.State
import BsdAdditions.Indent.Io
import BsdAdditions.Indent.Parse
import BsdAdditions.Indent.Lexi
import BsdAdditions.Indent.Comment
import BsdAdditions.Indent.Main
import BsdAdditions.Indent.Conditionals
import BsdAdditions.Indent.ParseSound
import BsdAdditions.Indent.Stacks
import BsdAdditions.Indent.StackBounds
import BsdAdditions.Indent.Effects
import BsdAdditions.Indent.DumpLine
import BsdAdditions.Indent.Continuation
import BsdAdditions.Indent.CaseIndent
import BsdAdditions.Common.Triples
import BsdAdditions.Ee.Ends
import BsdAdditions.Ee.Undelete
import BsdAdditions.Ee.StartLine
import BsdAdditions.Ee.Search
import BsdAdditions.Indent.Tables
import BsdAdditions.Indent.Args
import BsdAdditions.Indent.Division
import BsdAdditions.Ee.Stream
import BsdAdditions.Common.Regular
import BsdAdditions.Tokens.Numbers
import BsdAdditions.Curse.Terminfo
import BsdAdditions.Curse.TerminfoSafe
import BsdAdditions.Curse.TerminfoEntry
import BsdAdditions.Curse.InfoOut
import BsdAdditions.Curse.InfoOutSafe
import BsdAdditions.Curse.Language
import BsdAdditions.Curse.Interprets
import BsdAdditions.Ee.Prompt
import BsdAdditions.Ee.Columns
import BsdAdditions.Indent.Typenames
import BsdAdditions.Curse.Window
import BsdAdditions.Timeout.Duration
import BsdAdditions.Factor.Convert
import BsdAdditions.Indent.Profile
import BsdAdditions.Curse.Keyboard
import BsdAdditions.Ee.Pipe
import BsdAdditions.Ee.DeleteForward
import BsdAdditions.Ee.InitFile
import BsdAdditions.Ee.ResolveName
import BsdAdditions.Common.Terminal
import BsdAdditions.Common.Scan
import BsdAdditions.Update.Display
import BsdAdditions.Update.Cells
import BsdAdditions.Update.Device
import BsdAdditions.Update.LineSync
import BsdAdditions.Update.UpdateLine
