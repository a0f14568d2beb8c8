import Jack.Main
import Jack.Proofs.Addressing
import Jack.Proofs.Build
import Jack.Proofs.Conditions
import Jack.Proofs.Configuration
import Jack.Proofs.Constants
import Jack.Proofs.Diagnostics
import Jack.Proofs.Dump
import Jack.Proofs.Evaluation
import Jack.Proofs.Failure
import Jack.Proofs.FirstError
import Jack.Proofs.Independence
import Jack.Proofs.Integers
import Jack.Proofs.Layout
import Jack.Proofs.Numbering
import Jack.Proofs.Preservation
import Jack.Proofs.Renaming
import Jack.Proofs.ScopeLog
import Jack.Proofs.StackDiscipline
import Jack.Proofs.Strings
