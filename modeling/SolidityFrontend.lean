import SolidityFrontend.Command
import SolidityFrontend.Main
import SolidityFrontend.Proofs.Reading
import SolidityFrontend.Proofs.Repeating
import SolidityFrontend.Proofs.ReadingType
import SolidityFrontend.Proofs.ReadingExpr
import SolidityFrontend.Proofs.ReadingOperator
import SolidityFrontend.Proofs.ReadingStmt
import SolidityFrontend.Proofs.ReadingDecl
import SolidityFrontend.Proofs.Measuring
import SolidityFrontend.Proofs.Segments
import SolidityFrontend.Proofs.ReadingFile
import SolidityFrontend.Proofs.Parts
import SolidityFrontend.Proofs.Tiers
import SolidityFrontend.Proofs.Coverage
import SolidityFrontend.Proofs.Laying
import SolidityFrontend.Proofs.Drawing
import SolidityFrontend.Proofs.VersionPlaces
import SolidityFrontend.Proofs.NestedTree
import SolidityFrontend.Proofs.Spacing
import SolidityFrontend.Proofs.Respanning
import SolidityFrontend.Proofs.Printing
import SolidityFrontend.Proofs.Finishing
import SolidityFrontend.Proofs.Accepting
import SolidityFrontend.Proofs.ReadingBack
import SolidityFrontend.Proofs.Agreeing
import SolidityFrontend.Proofs.Joining
import SolidityFrontend.Proofs.LexemeClass
import SolidityFrontend.Proofs.LongestMatch
import SolidityFrontend.Proofs.Reporting
import SolidityFrontend.Proofs.RespanningDecl
import SolidityFrontend.Proofs.Resuming
import SolidityFrontend.Proofs.TokenIndex
import SolidityFrontend.Proofs.WellFormed
import SolidityFrontend.Proofs.AgreeingDecl
import SolidityFrontend.Proofs.Brackets
import SolidityFrontend.Proofs.Composing
import SolidityFrontend.Proofs.Discipline
import SolidityFrontend.Proofs.Located
import SolidityFrontend.Proofs.LocatedExpr
import SolidityFrontend.Proofs.RespanningTree
import SolidityFrontend.Proofs.LocatedStmt
import SolidityFrontend.Proofs.LocatedDecl
import SolidityFrontend.Proofs.Positions
import SolidityFrontend.Proofs.Choosing
import SolidityFrontend.Proofs.Bodies
import SolidityFrontend.Proofs.Yielding
import SolidityFrontend.Proofs.Steepness
import SolidityFrontend.Proofs.Deciding
import SolidityFrontend.Proofs.Decoding
import SolidityFrontend.Proofs.Heights
import SolidityFrontend.Proofs.Legible
import SolidityFrontend.Proofs.Marking
import SolidityFrontend.Proofs.Resolving
import SolidityFrontend.Proofs.Telling
import SolidityFrontend.Proofs.Unfinished
import SolidityFrontend.Proofs.Escaping
import SolidityFrontend.Proofs.ReadingBackType
import SolidityFrontend.Proofs.Attributing
import SolidityFrontend.Proofs.Trying
import SolidityFrontend.Proofs.Excerpts
import SolidityFrontend.Proofs.StringEnds
import SolidityFrontend.Proofs.VersionLayout
import SolidityFrontend.Proofs.VersionPragma
import SolidityFrontend.Proofs.JoinedStrings
import SolidityFrontend.Proofs.LostSemicolon
import SolidityFrontend.Proofs.NearestElse
import SolidityFrontend.Proofs.Respelling
import SolidityFrontend.Proofs.PragmaPlaces
import SolidityFrontend.Proofs.TypeWords
import SolidityFrontend.Proofs.Assembly
import SolidityFrontend.Proofs.NestingLimit
