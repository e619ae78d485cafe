import RelationLang.Exchange.Read
import RelationLang.Proofs.Graph.Extension
import RelationLang.Proofs.Graph.Views
import RelationLang.Proofs.Interpreter.Blocks
import RelationLang.Proofs.Interpreter.Kinds
import RelationLang.Proofs.Interpreter.Logging
import RelationLang.Proofs.Interpreter.Soundness
import RelationLang.Proofs.Interpreter.StandardBound
import RelationLang.Proofs.Interpreter.StandardGraph
import RelationLang.Proofs.Session.Document
import RelationLang.Proofs.Session.Recompiled
import RelationLang.Sample
import RelationLang.Session
import RelationLang.Settings.Document
import RelationLang.Settings.Environment
import RelationLang.Proofs.Program.Groups
